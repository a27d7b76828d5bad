/-
  What a process does to the others.

  The kernel fills, copies and frees pages by their physical addresses.  A step of the current
  process changes only pages that were free, the page of the memory viewer, the console, and pages
  that belong to the current process alone (`Exposed`), so that the others do not notice it.
-/
import CProj.WeensyOS.Isolation

namespace CProj.WeensyOS

variable {L : Layout} {d : ℕ → ℕ} {s s' s'' s₀ : State} {i j p : ℕ} {evs : List Event}

/-- The process in the slot `i` sees no difference between `s` and `s'`. -/
structure Untouched (s s' : State) (i : ℕ) : Prop where
  /-- its state, pid and registers -/
  proc : s'.ptable i = s.ptable i
  translate : ∀ v, translate s'.mem (s'.root i) v = translate s.mem (s.root i) v
  pages : ∀ v n q, Canonical v → WeensyOS.translate s.mem (s.root i) v = some (n, q) → IsUser q →
    n ≠ CONSOLE_PAGE → s'.mem n = s.mem n

theorem Untouched.trans (h : Untouched s s' i) (h' : Untouched s' s'' i) : Untouched s s'' i := by
  refine ⟨h'.proc.trans h.proc, fun v => (h'.translate v).trans (h.translate v), ?_⟩
  intro v n q hv htr huser hcon
  rw [h'.pages v n q hv ((h.translate v).trans htr) huser hcon]
  exact h.pages v n q hv htr huser hcon

theorem Untouched.live (h : Untouched s s' i) : s'.Live i ↔ s.Live i := by
  rw [State.Live, State.Live, h.proc]

/-! ## What a step may change -/

/-- A page that a step of the process in the slot `j` may change. -/
def Exposed (L : Layout) (s : State) (j p : ℕ) : Prop :=
  Alloc L p ∧ s.pages p = 0 ∨ p ∈ s.viewerPages ∨ p = CONSOLE_PAGE ∨
    s.Live j ∧ Private s.mem (s.root j) p

/-- The state `s'` is `s` after a step that changes only what the process in the slot `j` exposes. -/
structure Spares (L : Layout) (j : ℕ) (s s' : State) : Prop where
  procs : ∀ i, s.Live i → i ≠ j → s'.ptable i = s.ptable i
  mem : ∀ p, ¬ Exposed L s j p → s'.mem p = s.mem p

/-- What another process owns is not exposed. -/
theorem Inv.not_exposed (h : Inv L d s) (hi : s.Live i) (hij : i ≠ j)
    (hp : p ∈ owned s.mem (s.root i)) : ¬ Exposed L s j p := by
  have hmem : p ∈ s.holds i := by
    rw [holds_of_live hi]
    exact hp
  rintro (⟨-, h0⟩ | hview | hcon | ⟨hj, hpriv⟩)
  · exact h.covered i hi p hp h0
  · have h1 := h.exclusive p (Or.inl hview)
    have h2 := two_le_count hi.1 hmem (Or.inl hview)
    omega
  · refine ((h.procs i hi).alloc p hp).not_console ?_
    rw [hcon]
    rfl
  · have h1 := h.exclusive p (Or.inr ⟨j, hj, hpriv⟩)
    have h2 := two_le_count hi.1 hmem (Or.inr ⟨j, hj, Ne.symm hij, hpriv⟩)
    omega

/-- A page that a process can access, other than the console, is one that it owns. -/
theorem ProcOk.mem_owned {m : Mem} {r v n q : ℕ} (h : ProcOk L m r) (hv : Canonical v)
    (htr : translate m r v = some (n, q)) (huser : IsUser q) (hcon : n ≠ CONSOLE_PAGE) :
    n ∈ owned m r := by
  by_cases hlow : v < 256
  · exact absurd (h.low v hlow n q htr huser).2.1 hcon
  · by_cases hhigh : v < 768
    · refine WeensyOS.mem_owned.2 (Or.inl (mem_procPages.2 ⟨v, by omega, hhigh, ?_⟩))
      exact userPage_eq_some.2 ⟨q, htr, huser⟩
    · rw [h.high v hv (by omega)] at htr
      cases htr

/-- **The others do not notice** what is exposed. -/
theorem Inv.untouched (h : Inv L d s) (hs : Spares L j s s') (hi : s.Live i) (hij : i ≠ j) :
    Untouched s s' i := by
  have hproc := hs.procs i hi hij
  have hkept : ∀ p ∈ owned s.mem (s.root i), s'.mem p = s.mem p := fun p hp =>
    hs.mem p (h.not_exposed hi hij hp)
  refine ⟨hproc, fun v => ?_, fun v n q hv htr huser hcon => ?_⟩
  · have hagree : Agree s.mem s'.mem (tables s.mem 3 (s.root i)) := by
      intro p hp k
      rw [hkept p (mem_owned.2 (Or.inr hp))]
    rw [State.root, hproc]
    exact hagree.translate
  · exact hkept n ((h.procs i hi).mem_owned hv htr huser hcon)

theorem spares_setProc {q : Proc} : Spares L j s (s.setProc j q) :=
  ⟨fun _ _ hij => setProc_of_ne hij, fun _ _ => rfl⟩

theorem spares_exited : Spares L j s (s.exited j) :=
  ⟨fun _ _ hij => setProc_of_ne hij, fun _ _ => rfl⟩

theorem spares_memshow (hres : memshow L s = .ok s') : Spares L j s s' := by
  rw [memshow] at hres
  obtain ⟨-, -, hres⟩ := bind_eq_ok.1 hres
  split_ifs at hres with hview
  · cases hn : firstFree L s.pages with
    | none =>
      rw [kalloc_none hn] at hres
      cases hres
    | some n =>
      simp only [kalloc_some hn] at hres
      obtain ⟨-, -, hres⟩ := bind_eq_ok.1 hres
      cases hres
      refine ⟨fun _ _ _ => rfl, fun p hp => ?_⟩
      have hpn : p ≠ n := by
        rintro rfl
        exact hp (Or.inl (firstFree_some hn))
      funext k
      simp only [State.alloc, page_div, fill_fill]
      exact fill_of_ne hpn k
  · cases hres
    refine ⟨fun _ _ _ => rfl, fun p hp => funext fun k => fill_of_ne ?_ k⟩
    rintro rfl
    refine hp (Or.inr (Or.inl ?_))
    rw [State.viewerPages, if_neg hview]
    exact List.mem_singleton_self _

theorem schedule_keeps (hres : schedule L s = .ok s') : s'.ptable = s.ptable ∧ s'.mem = s.mem := by
  rw [schedule] at hres
  cases hnext : nextRunnable s with
  | none =>
    rw [hnext] at hres
    cases hres
    exact ⟨rfl, rfl⟩
  | some k =>
    rw [hnext] at hres
    rw [(runProc_ok hres).1]
    exact ⟨rfl, rfl⟩

theorem spares_schedule (hres : schedule L s = .ok s') : Spares L j s s' := by
  obtain ⟨h1, h2⟩ := schedule_keeps hres
  exact ⟨fun _ _ _ => by rw [h1], fun _ _ => by rw [h2]⟩

/-- A change followed by a switch to another process. -/
theorem Spares.schedule (h : Spares L j s s') (hres : schedule L s' = .ok s'') :
    Spares L j s s'' := by
  obtain ⟨h1, h2⟩ := schedule_keeps hres
  exact ⟨fun i hi hij => by rw [h1, h.procs i hi hij], fun p hp => by rw [h2, h.mem p hp]⟩

/-! ## System calls -/

section
variable (h : Inv L d s) (hlive : s.Live s.current)
include h hlive

theorem Inv.spares_pageAlloc {addr : ℕ} {k : ℤ} (hres : syscallPageAlloc L s addr = .ok (k, s')) :
    Spares L s.current s s' := by
  obtain ⟨-, hrest, hmem⟩ := h.pageAlloc hlive hres
  refine ⟨fun i _ _ => by rw [hrest], fun p hp => hmem p (fun ht => ?_) fun hfree =>
    hp (Or.inl hfree)⟩
  exact hp (Or.inr (Or.inr (Or.inr ⟨hlive, Or.inl ht⟩)))

theorem Inv.spares_fork {k : ℤ} (hsafe : ForkSafe s) (hres : syscallFork L s = .ok (k, s')) :
    Spares L s.current s s' := by
  obtain ⟨-, -, -, hprocs, hmem⟩ := h.fork hlive hsafe hres
  exact ⟨fun i hi _ => hprocs i hi, fun p hp => hmem p fun hfree => hp (Or.inl hfree)⟩

theorem Inv.spares_store (v k w : ℕ) : Spares L s.current s (userStore s v k w) := by
  rw [userStore]
  cases htr : translate s.mem ((s.ptable s.current).pagetable / PAGESIZE) v with
  | none => exact ⟨fun _ _ _ => rfl, fun _ _ => rfl⟩
  | some x =>
    obtain ⟨n, q⟩ := x
    simp only
    split_ifs with hq
    swap
    · exact ⟨fun _ _ _ => rfl, fun _ _ => rfl⟩
    obtain ⟨huser, hwr, hv, -⟩ := hq
    refine ⟨fun _ _ _ => rfl, fun p hp => funext fun k => set_page_ne ?_ k⟩
    rintro rfl
    -- the console, or a page that the process may write to
    have hok := h.procs _ hlive
    by_cases hlow : v < 256
    · exact hp (Or.inr (Or.inr (Or.inl (hok.low v hlow p q htr huser).2.1)))
    · by_cases hhigh : v < 768
      · exact hp (Or.inr (Or.inr (Or.inr ⟨hlive, Or.inr ⟨v, q, by omega, hhigh, htr, huser, hwr⟩⟩)))
      · have hnone := hok.high v hv (by omega)
        rw [State.root, htr] at hnone
        cases hnone

theorem Inv.spares_dispatch {regs : Regs} {r : Option ℤ} (hsafe : ForkSafe s)
    (hres : WeensyOS.dispatch L s regs = .ok (r, s')) : Spares L s.current s s' := by
  rw [WeensyOS.dispatch] at hres
  split_ifs at hres with h1 h2 h3 h4 h5
  · cases hres
    exact ⟨fun _ _ _ => rfl, fun _ _ => rfl⟩
  · obtain ⟨s₁, hsched, hres⟩ := bind_eq_ok.1 hres
    cases hres
    exact spares_setProc.schedule hsched
  · obtain ⟨⟨k, s₁⟩, hcall, hres⟩ := bind_eq_ok.1 hres
    cases hres
    exact h.spares_pageAlloc hlive hcall
  · obtain ⟨⟨k, s₁⟩, hcall, hres⟩ := bind_eq_ok.1 hres
    cases hres
    exact h.spares_fork hlive hsafe hcall
  · obtain ⟨s₁, hcall, hres⟩ := bind_eq_ok.1 hres
    obtain ⟨s₂, hsched, hres⟩ := bind_eq_ok.1 hres
    cases hres
    rw [h.syscallExit hlive] at hcall
    cases hcall
    exact spares_exited.schedule hsched

end

/-! ## Steps -/

section
variable (hi : s.Live i) (hic : i ≠ s.current)
include hi hic

/-- The registers are saved, and memory is shown. -/
theorem Inv.untouched_entry {regs : Regs} (h : Inv L d s)
    (hres : WeensyOS.memshow L (WeensyOS.saveRegs s regs) = .ok s') : Untouched s s' i :=
  (h.untouched spares_setProc hi hic).trans
    ((h.saveRegs regs).untouched (spares_memshow hres) (saveRegs_live.2 hi) hic)

theorem Good.untouched_exception {regs : Regs} (h : Good L d s)
    (hres : WeensyOS.exception L s regs = .ok s') : Untouched s s' i := by
  -- the switch, after the state has been saved and shown
  have hswitch : ∀ s₁, Inv L d s₁ → s₁.current = s.current → Untouched s s₁ i →
      (if regs.intno = INT_TIMER then schedule L s₁
        else if regs.intno = INT_PF then
          if regs.errcode &&& PFERR_USER = 0 then .error .panic
          else schedule L (s₁.setProc s₁.current { s₁.ptable s₁.current with state := .broken })
        else .error .panic) = .ok s' → Untouched s s' i := by
    intro s₁ hinv hcur hun hres
    have hi₁ := hun.live.2 hi
    have hic₁ : i ≠ s₁.current := by
      rw [hcur]
      exact hic
    refine hun.trans ?_
    split_ifs at hres with h1 h2 h3
    · exact hinv.untouched (spares_schedule hres) hi₁ hic₁
    · exact hinv.untouched (spares_setProc.schedule hres) hi₁ hic₁
  rw [WeensyOS.exception] at hres
  by_cases hshow : regs.intno ≠ INT_PF ∨ regs.errcode &&& PFERR_USER ≠ 0
  · simp only [if_pos hshow] at hres
    obtain ⟨s₁, hs, hres⟩ := bind_eq_ok.1 hres
    obtain ⟨hinv, hq⟩ := (h.inv.saveRegs regs).memshow hs
    exact hswitch s₁ hinv hq.current (h.inv.untouched_entry hi hic hs) hres
  · simp only [if_neg hshow] at hres
    exact hswitch _ (h.inv.saveRegs regs) rfl (h.inv.untouched spares_setProc hi hic) hres

theorem Good.untouched {ev : Event} (h : Good L (fun _ => 0) s)
    (hres : WeensyOS.step L s ev = .ok s') : Untouched s s' i := by
  have hlive := h.running (step_spinning hres)
  unfold WeensyOS.step at hres
  split_ifs at hres with hspin
  cases ev with
  | syscall regs =>
    obtain ⟨⟨r, s₂⟩, hcall, hres⟩ := bind_eq_ok.1 hres
    cases hres
    obtain ⟨s₁, hshow, hdisp⟩ := syscallEntry_ok hcall
    obtain ⟨hinv, hq⟩ := (h.inv.saveRegs regs).memshow hshow
    have hun := h.inv.untouched_entry hi hic hshow
    have hlive₁ : s₁.Live s₁.current := by
      rw [hq.live, hq.current]
      exact saveRegs_live.2 hlive
    have hic₁ : i ≠ s₁.current := by
      rw [hq.current]
      exact hic
    exact hun.trans (hinv.untouched (hinv.spares_dispatch hlive₁ (hinv.forkSafe hlive₁) hdisp)
      (hun.live.2 hi) hic₁)
  | exception regs => exact h.untouched_exception hi hic hres
  | store v k w =>
    cases hres
    exact h.inv.untouched (h.inv.spares_store hlive v k w) hi hic

end

/-- **Bystanders.**  In every run in which `syscall_page_alloc` never replaces a page, no step of the
    current process touches another. -/
theorem run_untouched {ev : Event} (hboot : Boot L s₀)
    (hallocs : Meets (step L) (AllocsUnmapped L) s₀ evs)
    (hrun : run (step L) s₀ evs = .ok s) (hstep : step L s ev = .ok s') (hi : s.Live i)
    (hic : i ≠ s.current) : Untouched s s' i :=
  (run_good hboot hallocs hrun).untouched hi hic hstep

/-- The first process exits, the second yields and the third exits; the second does not notice. -/
theorem run_untouched_exit : ∃ s s',
    run (step smallKernel) fourProcesses [call SYSCALL_EXIT 0, call SYSCALL_YIELD 0] = .ok s ∧
      step smallKernel s (call SYSCALL_EXIT 0) = .ok s' ∧ s.Live 2 ∧ 2 ≠ s.current ∧
      Untouched s s' 2 := by
  have hshown : shown smallKernel fourProcesses = 36 * 4096 := by decide +kernel
  have hV : 36 * 4096 ≠ 0 := by decide
  obtain ⟨s₁, hstep₁, h₁, -⟩ := fourProcesses_turn.exit (j := 2) (by rw [hshown]; exact hV) rfl
  rw [hshown] at h₁
  obtain ⟨s₂, hstep₂, h₂, -⟩ := h₁.yield (j := 3) (by rw [h₁.shown hV]; exact hV) rfl
  rw [h₁.shown hV] at h₂
  obtain ⟨s₃, hstep₃, -⟩ := h₂.exit (j := 4) (by rw [h₂.shown hV]; exact hV) rfl
  have hrun : run (step smallKernel) fourProcesses [call SYSCALL_EXIT 0, call SYSCALL_YIELD 0] =
      .ok s₂ :=
    run_cons.2 ⟨s₁, hstep₁, run_cons.2 ⟨s₂, hstep₂, rfl⟩⟩
  have hlive : s₂.Live 2 := (h₂.active.live 2).2 (by decide)
  have hne : 2 ≠ s₂.current := by
    rw [h₂.current]
    decide
  refine ⟨s₂, s₃, hrun, hstep₃, hlive, hne, run_untouched fourProcesses_boot ?_ hrun hstep₃ hlive hne⟩
  exact ⟨fun h => absurd h (by decide), fun _ _ =>
    ⟨fun h => absurd h (by decide), fun _ _ => trivial⟩⟩

end CProj.WeensyOS
