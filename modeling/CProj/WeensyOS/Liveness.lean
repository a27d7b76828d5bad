/-
  What keeps the system going.

  An event that a process or the timer can cause without asking for a panic (`Ordinary`) never makes
  the kernel fail: every run ends in a state, or with a scheduler that has nothing to run.  And
  the scheduler is fair: a process that can run does so after at most `NPROC - 1` calls of
  `schedule`.
-/
import CProj.Lib.RoundRobin
import CProj.WeensyOS.AddressSpace
import CProj.WeensyOS.Bystanders

namespace CProj.WeensyOS

variable {L : Layout} {d : ℕ → ℕ} {s s' s₀ t : State} {i j : ℕ} {k : ℤ} {ev : Event}
  {evs : List Event}

/-! ## The ways in which an event is served -/

/-- The ways in which the switch of `syscall` ends. -/
inductive Answers (L : Layout) (s : State) (regs : Regs) : Option ℤ → State → Prop
  | getpid (hrax : regs.rax = SYSCALL_GETPID) : Answers L s regs (some (s.ptable s.current).pid) s
  | yield {u : State} (hrax : regs.rax = SYSCALL_YIELD)
    (hsched : schedule L (saveRegs s { (s.ptable s.current).regs with rax := 0 }) = .ok u) :
    Answers L s regs none u
  | pageAlloc {k : ℤ} {u : State} (hrax : regs.rax = SYSCALL_PAGE_ALLOC)
    (hcall : syscallPageAlloc L s regs.rdi = .ok (k, u)) : Answers L s regs (some k) u
  | fork {k : ℤ} {u : State} (hrax : regs.rax = SYSCALL_FORK) (hcall : syscallFork L s = .ok (k, u)) :
    Answers L s regs (some k) u
  | exit {t u : State} (hrax : regs.rax = SYSCALL_EXIT) (hexit : syscallExit s = .ok t)
    (hsched : schedule L t = .ok u) : Answers L s regs none u

theorem dispatch_cases {regs : Regs} {r : Option ℤ} (h : dispatch L s regs = .ok (r, s')) :
    Answers L s regs r s' := by
  rw [dispatch] at h
  split_ifs at h with h1 h2 h3 h4 h5
  · cases h
    exact .getpid h1
  · obtain ⟨s₁, hsched, h⟩ := bind_eq_ok.1 h
    cases h
    exact .yield h2 hsched
  · obtain ⟨⟨k, s₁⟩, hcall, h⟩ := bind_eq_ok.1 h
    cases h
    exact .pageAlloc h3 hcall
  · obtain ⟨⟨k, s₁⟩, hcall, h⟩ := bind_eq_ok.1 h
    cases h
    exact .fork h4 hcall
  · obtain ⟨s₁, hexit, h⟩ := bind_eq_ok.1 h
    obtain ⟨s₂, hsched, h⟩ := bind_eq_ok.1 h
    cases h
    exact .exit h5 hexit hsched

/-- The events that make the kernel call `schedule`. -/
def switching : Event → Bool
  | .syscall regs => regs.rax = SYSCALL_YIELD ∨ regs.rax = SYSCALL_EXIT
  | .exception _ => true
  | .store _ _ _ => false

/-- An event that does not make the kernel call `schedule`. -/
inductive Stays (L : Layout) (s : State) : Event → State → Prop
  | call {regs : Regs} {k : ℤ} {s₁ u : State} (hshow : memshow L (saveRegs s regs) = .ok s₁)
    (h : Answers L s₁ regs (some k) u) : Stays L s (.syscall regs) u
  | store (v i w : ℕ) : Stays L s (.store v i w) (userStore s v i w)

/-- **One event** switches, or stays with the process. -/
theorem step_cases (h : step L s ev = .ok s') : s.spinning = false ∧
    ((switching ev = true ∧ ∃ t, Switches L s ev t ∧ schedule L t = .ok s') ∨
      (switching ev = false ∧ Stays L s ev s')) := by
  have hspin := step_spinning h
  refine ⟨hspin, ?_⟩
  unfold step at h
  rw [if_neg (by rw [hspin]; decide)] at h
  cases ev with
  | syscall regs =>
    obtain ⟨⟨r, s₂⟩, hcall, h⟩ := bind_eq_ok.1 h
    cases h
    obtain ⟨s₁, hshow, hdisp⟩ := syscallEntry_ok hcall
    have hans := dispatch_cases hdisp
    have hswitch : switching (.syscall regs) =
        decide (regs.rax = SYSCALL_YIELD ∨ regs.rax = SYSCALL_EXIT) := rfl
    rw [hswitch]
    cases hans with
    | getpid hrax => exact .inr ⟨by rw [hrax]; decide, .call hshow (.getpid hrax)⟩
    | yield hrax hsched => exact .inl ⟨by rw [hrax]; decide, _, .yield hrax hshow, hsched⟩
    | pageAlloc hrax hcall => exact .inr ⟨by rw [hrax]; decide, .call hshow (.pageAlloc hrax hcall)⟩
    | fork hrax hcall => exact .inr ⟨by rw [hrax]; decide, .call hshow (.fork hrax hcall)⟩
    | exit hrax hexit hsched => exact .inl ⟨by rw [hrax]; decide, _, .exit hrax hshow hexit, hsched⟩
  | exception regs =>
    left
    refine ⟨rfl, ?_⟩
    change exception L s regs = .ok s' at h
    rw [exception] at h
    by_cases hshow : regs.intno ≠ INT_PF ∨ regs.errcode &&& PFERR_USER ≠ 0
    · simp only [if_pos hshow] at h
      obtain ⟨s₁, hs, h⟩ := bind_eq_ok.1 h
      split_ifs at h with h1 h2 h3
      · exact ⟨_, .timer h1 hs, h⟩
      · exact ⟨_, .fault h2 h3 hs, h⟩
    · -- a page fault of the kernel
      simp only [not_or, not_not] at hshow
      simp only [hshow.1, hshow.2, ne_eq, not_true_eq_false, or_self, if_false, if_true, ok_bind] at h
      rw [if_neg (show INT_PF ≠ INT_TIMER by decide)] at h
      cases h
  | store v i w =>
    cases h
    exact .inr ⟨rfl, .store v i w⟩

/-! ## Calls return -/

section
variable (h : Inv L d s)
include h

/-- The memory viewer has the page that it gets when it is first shown. -/
theorem Inv.viewer_memshow (hres : WeensyOS.memshow L s = .ok s') :
    shown L s ≠ 0 ∧ s'.viewer = shown L s := by
  have hne : shown L s ≠ 0 := by
    intro h0
    rw [WeensyOS.memshow, assert_ok h.slot0, ok_bind] at hres
    rw [shown] at h0
    split_ifs at h0 hres with hview
    · have hz : (kalloc L s PAGESIZE).1 = 0 := by
        cases hn : firstFree L s.pages with
        | none => rw [kalloc_none hn]
        | some n =>
          rw [kalloc_some hn]
          simpa [hn] using h0
      simp only [hz] at hres
      cases hres
    · exact hview h0
  obtain ⟨s₁, hres₁, hview, -⟩ := h.memshow_ok hne
  cases hres.symm.trans hres₁
  exact ⟨hne, hview⟩

theorem Inv.pageAlloc_ok (hlive : s.Live s.current) (addr : ℕ) :
    ∃ k s', syscallPageAlloc L s addr = .ok (k, s') := by
  have hspec := syscallPageAlloc_spec (L := L) addr (h.treeShaped.pagetable hlive)
    (h.procs _ hlive).shaped (h.covered.tables hlive)
  generalize syscallPageAlloc L s addr = res at hspec ⊢
  cases hspec with
  | refused _ => exact ⟨_, _, rfl⟩
  | fault _ hfault =>
    rcases hfault with hperm | ⟨hlevel, htr⟩
    · exact absurd ((h.procs _ hlive).full _) hperm
    · exact absurd ((h.procs _ hlive).small _ htr) hlevel.ne'
  | stuck _ _ _ _ _ => exact ⟨_, _, rfl⟩
  | done _ _ _ _ _ _ _ _ _ _ => exact ⟨_, _, rfl⟩

/-- The state after `syscall_fork`: without a child, or with one. -/
theorem Inv.fork_ok (hlive : s.Live s.current) (hsafe : ForkSafe s) :
    ∃ k s', syscallFork L s = .ok (k, s') ∧ s'.viewer = s.viewer ∧
      ((k = -1 ∧ ∀ i, (s'.ptable i).state = (s.ptable i).state) ∨
        ∃ slot : ℕ, k = slot ∧ Duplicated L s s' slot) := by
  have hforks := h.forks hlive hsafe
  have hb := h.parent hlive
  generalize syscallFork L s = res at hforks ⊢
  cases hforks with
  | refused _ => exact ⟨_, _, rfl, rfl, .inl ⟨rfl, fun _ => rfl⟩⟩
  | @done slot c K s₁ hslot hc hinv =>
    refine ⟨_, _, rfl, ?_, .inr ⟨slot, rfl, hinv.duplicated h.covered hlive hslot⟩⟩
    change s₁.viewer = _
    rw [hinv.rest]
    rfl
  | @stuck slot c w E K s₁ hslot hc hw hinv hE hnone =>
    have hb' : Parent (forkBase s slot c) (s.root s.current) :=
      ⟨hb.shaped, hb.used, hb.low, hb.pages⟩
    have hfree : ∀ p ∈ shares s.mem (s.root s.current) w, Freeable p := by
      intro p hp
      have ha := (h.procs _ hlive).alloc p (mem_owned.2 (Or.inl (hb.mem_procPages hw.le hp)))
      exact ⟨ha.pos, ha.lt, ha.not_console⟩
    rw [cleanup_spec hinv hb' (h.noWrap hlive hsafe) hw.le hE hfree, ok_bind]
    refine ⟨_, _, rfl, rfl, .inl ⟨rfl, fun i => ?_⟩⟩
    change (Function.update s.ptable slot _ i).state = _
    rw [Function.update_apply]
    split_ifs with hi
    · rw [hi]
    · rfl

/-- `schedule` picks the next process that can run. -/
theorem Inv.schedule_ok : ∃ s', WeensyOS.schedule L s = .ok s' ∧ s'.ptable = s.ptable ∧
    s'.viewer = s.viewer ∧
    ((s'.spinning = s.spinning ∧ nextRunnable s = some s'.current) ∨
      s'.spinning = true ∧ nextRunnable s = none) := by
  rw [WeensyOS.schedule]
  cases hnext : nextRunnable s with
  | none => exact ⟨_, rfl, rfl, rfl, .inr ⟨rfl, rfl⟩⟩
  | some i =>
    obtain ⟨hi, hstate⟩ := nextRunnable_some hnext
    exact ⟨_, h.runProc hi hstate, rfl, rfl, .inl ⟨rfl, rfl⟩⟩

end

/-! ## Entering the kernel -/

/-- The state `s₁` is `s` after the registers have been saved and memory has been shown. -/
structure Entered (L : Layout) (d : ℕ → ℕ) (s : State) (regs : Regs) (s₁ : State) : Prop where
  inv : Inv L d s₁
  live : s₁.Live s₁.current
  current : s₁.current = s.current
  spinning : s₁.spinning = s.spinning
  ptable : s₁.ptable = (saveRegs s regs).ptable
  viewer : s₁.viewer = shown L s
  shown : shown L s ≠ 0

theorem Good.entered {regs : Regs} {s₁ : State} (h : Good L d s) (hspin : s.spinning = false)
    (hshow : memshow L (saveRegs s regs) = .ok s₁) : Entered L d s regs s₁ := by
  obtain ⟨hinv, hq⟩ := (h.inv.saveRegs regs).memshow hshow
  obtain ⟨hne, hview⟩ := (h.inv.saveRegs regs).viewer_memshow hshow
  refine ⟨hinv, ?_, hq.current, hq.spinning, hq.ptable, hview, hne⟩
  rw [hq.live, hq.current]
  exact saveRegs_live.2 (h.running hspin)

section
variable {regs : Regs} {s₁ : State} (h : Entered L d s regs s₁)
include h

theorem Entered.ptable_of_ne (hi : i ≠ s.current) : s₁.ptable i = s.ptable i := by
  rw [h.ptable]
  exact setProc_of_ne hi

theorem Entered.state (i : ℕ) : (s₁.ptable i).state = (s.ptable i).state := by
  by_cases hi : i = s.current
  · rw [h.ptable, hi, saveRegs, setProc_self]
  · rw [h.ptable_of_ne hi]

theorem Entered.pid : (s₁.ptable s₁.current).pid = s.current := by
  rw [h.inv.pid _ h.live, h.current]

end

/-! ## Calling `schedule` -/

/-- The state `t`, in which `schedule` is called, comes from `s`. -/
structure Leaving (L : Layout) (d : ℕ → ℕ) (s t : State) : Prop where
  inv : Inv L d t
  pid : (t.ptable t.current).pid = s.current
  others : ∀ i, i ≠ s.current → t.ptable i = s.ptable i
  spinning : t.spinning = s.spinning
  viewer : t.viewer = shown L s
  shown : shown L s ≠ 0

theorem Good.leaving (h : Good L d s) (hspin : s.spinning = false) (hsw : Switches L s ev t) :
    Leaving L d s t := by
  have hinv := h.switches hspin hsw
  -- the slot of the process that leaves may be written
  have hleave : ∀ {regs : Regs} {s₁ : State} {q : Proc}, Entered L d s regs s₁ →
      t.ptable = Function.update s₁.ptable s₁.current q → q.pid = (s₁.ptable s₁.current).pid →
      t.current = s₁.current → t.spinning = s₁.spinning → t.viewer = s₁.viewer →
      Leaving L d s t := by
    intro regs s₁ q e hpt hpid hcur hsp hview
    refine ⟨hinv, ?_, fun i hi => ?_, hsp.trans e.spinning, hview.trans e.viewer, e.shown⟩
    · rw [hcur, hpt, Function.update_self, hpid, e.pid]
    · rw [hpt, Function.update_of_ne (by rw [e.current]; exact hi), e.ptable_of_ne hi]
  cases hsw with
  | yield _ hshow => exact hleave (h.entered hspin hshow) rfl rfl rfl rfl rfl
  | exit _ hshow hexit =>
    have e := h.entered hspin hshow
    rw [e.inv.syscallExit e.live] at hexit
    cases hexit
    exact hleave e rfl rfl rfl rfl rfl
  | timer _ hshow =>
    exact hleave (h.entered hspin hshow) (Function.update_eq_self _ _).symm rfl rfl rfl rfl
  | fault _ _ hshow => exact hleave (h.entered hspin hshow) rfl rfl rfl rfl rfl

/-- The search of `schedule` goes around the circle of the slots. -/
theorem nextRunnable_eq : nextRunnable s =
    (circle NPROC (s.ptable s.current).pid).find? fun i => (s.ptable i).state = .runnable := rfl

theorem nextRunnable_none (hc : (s.ptable s.current).pid < NPROC) (h : nextRunnable s = none) :
    ∀ i < NPROC, (s.ptable i).state ≠ .runnable := by
  intro i hi
  rw [nextRunnable_eq, find?_circle_eq_none hc] at h
  exact of_decide_eq_false (h i hi)

/-- A turn goes to the process in the slot `i`, or to one that is closer to it. -/
theorem Leaving.turn (h : Leaving L d s t) (hc : s.current < NPROC) (hi : i < NPROC)
    (hne : i ≠ s.current) (hstate : (s.ptable i).state = .runnable)
    (hsched : schedule L t = .ok s') : s'.spinning = s.spinning ∧
      (s'.current = i ∨ ahead NPROC s'.current i < ahead NPROC s.current i) := by
  have hruns : decide ((t.ptable i).state = .runnable) = true := by
    rw [h.others i hne, hstate]
    decide
  obtain ⟨j, hj, -, -, hcloser⟩ := find?_circle (P := fun i => (t.ptable i).state = .runnable)
    hc hi hruns
  obtain ⟨s₁, hok, -, -, hnext⟩ := h.inv.schedule_ok
  cases hsched.symm.trans hok
  rw [nextRunnable_eq, h.pid, hj] at hnext
  rcases hnext with ⟨hspin, hj'⟩ | ⟨-, hnone⟩
  · cases hj'
    exact ⟨hspin.trans h.spinning, hcloser⟩
  · cases hnone

/-! ## Events that stay with the process -/

/-- What the current process keeps in an event that does not switch. -/
structure Kept (L : Layout) (s s' : State) : Prop where
  current : s'.current = s.current
  spinning : s'.spinning = s.spinning
  state : (s'.ptable s'.current).state = (s.ptable s.current).state
  shown : shown L s ≠ 0 → shown L s' ≠ 0

theorem shown_of_viewer (h : s.viewer ≠ 0) : shown L s ≠ 0 := by
  rw [shown, if_neg h]
  exact h

theorem Good.stays (h : Good L (fun _ => 0) s) (hspin : s.spinning = false)
    (hst : Stays L s ev s') : Kept L s s' := by
  cases hst with
  | @call regs k s₁ _ hshow hans =>
    have e := h.entered hspin hshow
    have hstate : (s₁.ptable s₁.current).state = (s.ptable s.current).state := by
      rw [e.state, e.current]
    have hviewer : s₁.viewer ≠ 0 := by
      rw [e.viewer]
      exact e.shown
    generalize hr : some k = r at hans
    cases hans with
    | getpid _ => exact ⟨e.current, e.spinning, hstate, fun _ => shown_of_viewer hviewer⟩
    | pageAlloc _ hcall =>
      obtain ⟨-, hrest, -⟩ := e.inv.pageAlloc e.live hcall
      rw [hrest]
      exact ⟨e.current, e.spinning, hstate, fun _ => shown_of_viewer hviewer⟩
    | fork _ hcall =>
      have hsafe := e.inv.forkSafe e.live
      obtain ⟨k₁, s₂, hcall', hview, -⟩ := e.inv.fork_ok e.live hsafe
      cases hcall.symm.trans hcall'
      obtain ⟨-, hcur, hsp, hptable, -⟩ := e.inv.fork e.live hsafe hcall
      refine ⟨hcur.trans e.current, hsp.trans e.spinning, ?_, fun _ => shown_of_viewer ?_⟩
      · rw [hcur, hptable _ e.live, hstate]
      · rw [hview]
        exact hviewer
    | yield _ _ => cases hr
    | exit _ _ _ => cases hr
  | store v i w =>
    obtain ⟨-, hq⟩ := h.inv.store (h.running hspin) v i w
    have hshown : WeensyOS.shown L (userStore s v i w) = WeensyOS.shown L s := by
      rw [userStore]
      split
      · split_ifs <;> rfl
      · rfl
    exact ⟨hq.current, hq.spinning, by rw [hq.current, hq.ptable], by rw [hshown]; exact id⟩

/-! ## The kernel never fails -/

/-- An event that does not ask for a panic: a system call that exists, a timer interrupt, a page
    fault of the process, or a store. -/
def Ordinary : Event → Prop
  | .syscall regs => regs.rax = SYSCALL_GETPID ∨ regs.rax = SYSCALL_YIELD ∨
      regs.rax = SYSCALL_PAGE_ALLOC ∨ regs.rax = SYSCALL_FORK ∨ regs.rax = SYSCALL_EXIT
  | .exception regs => regs.intno = INT_TIMER ∨
      regs.intno = INT_PF ∧ regs.errcode &&& PFERR_USER ≠ 0
  | .store _ _ _ => True

/-- A state in which the kernel can serve every event. -/
structure Serving (L : Layout) (s : State) : Prop where
  good : Good L (fun _ => 0) s
  runnable : s.spinning = false → (s.ptable s.current).state = .runnable
  idle : s.spinning = true → ∀ i < NPROC, (s.ptable i).state ≠ .runnable
  shown : shown L s ≠ 0

theorem Boot.serving (h : Boot L s) (hcur : (s.ptable s.current).state = .runnable)
    (hroom : firstFree L s.pages ≠ none) : Serving L s := by
  refine ⟨h.good, fun _ => hcur, fun hspin => ?_, ?_⟩
  · rw [h.spinning] at hspin
    cases hspin
  · obtain ⟨n, hn⟩ := Option.ne_none_iff_exists'.1 hroom
    have hpos := (firstFree_some hn).1.pos
    rw [WeensyOS.shown, if_pos h.viewer, hn, Option.getD_some]
    omega

/-- One step of a run in which `syscall_page_alloc` never replaces a page. -/
theorem Good.step_exact (h : Good L (fun _ => 0) s) (hun : AllocsUnmapped L s ev)
    (hstep : WeensyOS.step L s ev = .ok s') : Good L (fun _ => 0) s' := by
  have hsafe : SafeFork s ev := by
    cases ev with
    | syscall regs =>
      intro _
      exact h.inv.forkSafe (h.running (step_spinning hstep))
    | _ => trivial
  obtain ⟨d', h', hd⟩ := h.step hsafe hstep
  rw [hd hun] at h'
  exact h'

theorem Leaving.serving (h : Leaving L (fun _ => 0) s t) (hc : s.current < NPROC)
    (hspin : s.spinning = false) (hsched : schedule L t = .ok s') : Serving L s' := by
  obtain ⟨s₁, hok, hptable, hview, hnext⟩ := h.inv.schedule_ok
  cases hsched.symm.trans hok
  have hshown : WeensyOS.shown L s' ≠ 0 := by
    refine shown_of_viewer ?_
    rw [hview, h.viewer]
    exact h.shown
  refine ⟨h.inv.schedule hsched, fun _ => ?_, fun hs' => ?_, hshown⟩
  · rcases hnext with ⟨-, hnext⟩ | ⟨hs', -⟩
    · rw [hptable]
      exact (nextRunnable_some hnext).2
    · simp_all
  · rcases hnext with ⟨hs, -⟩ | ⟨-, hnone⟩
    · rw [hs, h.spinning, hspin] at hs'
      cases hs'
    · rw [hptable]
      exact nextRunnable_none (by rw [h.pid]; exact hc) hnone

theorem Serving.keeps (h : Serving L s) (hun : AllocsUnmapped L s ev)
    (hstep : step L s ev = .ok s') : Serving L s' := by
  obtain ⟨hspin, ⟨-, t, hsw, hsched⟩ | ⟨-, hst⟩⟩ := step_cases hstep
  · exact (h.good.leaving hspin hsw).serving (h.good.running hspin).1 hspin hsched
  · have hkept := h.good.stays hspin hst
    refine ⟨h.good.step_exact hun hstep, fun _ => ?_, fun hs' => ?_, hkept.shown h.shown⟩
    · rw [hkept.state]
      exact h.runnable hspin
    · rw [hkept.spinning, hspin] at hs'
      cases hs'

/-- The switch of `syscall` returns. -/
theorem Entered.dispatch_ok {regs : Regs} {s₁ : State} (h : Entered L d s regs s₁)
    (hsafe : regs.rax = SYSCALL_FORK → ForkSafe s₁) (hord : Ordinary (.syscall regs)) :
    ∃ r s₂, dispatch L s₁ regs = .ok (r, s₂) := by
  rw [dispatch]
  rcases hord with hrax | hrax | hrax | hrax | hrax
  · exact ⟨_, _, if_pos hrax⟩
  · obtain ⟨s₂, hsched, -⟩ := (h.inv.saveRegs { (s₁.ptable s₁.current).regs with rax := 0 }).schedule_ok
    refine ⟨none, s₂, ?_⟩
    rw [if_neg (by rw [hrax]; decide), if_pos hrax]
    simp only
    rw [hsched, ok_bind]
    rfl
  · obtain ⟨k, s₂, hcall⟩ := h.inv.pageAlloc_ok h.live regs.rdi
    refine ⟨some k, s₂, ?_⟩
    rw [if_neg (by rw [hrax]; decide), if_neg (by rw [hrax]; decide), if_pos hrax, hcall, ok_bind]
    rfl
  · obtain ⟨k, s₂, hcall, -⟩ := h.inv.fork_ok h.live (hsafe hrax)
    refine ⟨some k, s₂, ?_⟩
    rw [if_neg (by rw [hrax]; decide), if_neg (by rw [hrax]; decide), if_neg (by rw [hrax]; decide),
      if_pos hrax, hcall, ok_bind]
    rfl
  · obtain ⟨s₂, hsched, -⟩ := (h.inv.exited h.live).schedule_ok
    refine ⟨none, s₂, ?_⟩
    rw [if_neg (by rw [hrax]; decide), if_neg (by rw [hrax]; decide), if_neg (by rw [hrax]; decide),
      if_neg (by rw [hrax]; decide), if_pos hrax, h.inv.syscallExit h.live, ok_bind, hsched, ok_bind]
    rfl

theorem Serving.step_ok (h : Serving L s) (hspin : s.spinning = false) (hord : Ordinary ev) :
    ∃ s', step L s ev = .ok s' := by
  -- memory is shown after the registers have been saved
  have hshow : ∀ regs, ∃ s₁, memshow L (saveRegs s regs) = .ok s₁ := fun regs => by
    obtain ⟨s₁, hs₁, -⟩ := (h.good.inv.saveRegs regs).memshow_ok h.shown
    exact ⟨s₁, hs₁⟩
  cases ev with
  | syscall regs =>
    obtain ⟨s₁, hs₁⟩ := hshow regs
    have e := h.good.entered hspin hs₁
    obtain ⟨r, s₂, hdisp⟩ := e.dispatch_ok (fun _ => e.inv.forkSafe e.live) hord
    refine ⟨s₂, step_syscall hspin hs₁ hdisp fun hr => ?_⟩
    obtain ⟨k, rfl⟩ := Option.isSome_iff_exists.1 hr
    rw [(h.good.stays hspin (.call hs₁ (dispatch_cases hdisp))).state]
    exact h.runnable hspin
  | exception regs =>
    obtain ⟨s₁, hs₁⟩ := hshow regs
    have hsw : ∃ t, Switches L s (.exception regs) t := by
      rcases hord with hint | ⟨hint, huser⟩
      · exact ⟨_, .timer hint hs₁⟩
      · exact ⟨_, .fault hint huser hs₁⟩
    obtain ⟨t, hsw⟩ := hsw
    obtain ⟨s', hsched, -⟩ := (h.good.switches hspin hsw).schedule_ok
    exact ⟨s', (hsw.step hspin).trans hsched⟩
  | store v i w =>
    refine ⟨userStore s v i w, ?_⟩
    unfold step
    rw [if_neg (by rw [hspin]; decide)]

/-- **The kernel never fails.**  In a run of ordinary events in which `syscall_page_alloc` never
    replaces a page, no assertion fails, nothing panics, no access leaves `pages[]` and every loop
    ends: each event returns, until there is a state in which no process can run. -/
theorem run_serves (hboot : Boot L s₀) (hcur : (s₀.ptable s₀.current).state = .runnable)
    (hroom : firstFree L s₀.pages ≠ none) (hord : ∀ ev ∈ evs, Ordinary ev)
    (hallocs : Meets (step L) (AllocsUnmapped L) s₀ evs) :
    (∃ s, run (step L) s₀ evs = .ok s) ∨ run (step L) s₀ evs = .error .spinning ∧
      ∃ js s, js <+: evs ∧ run (step L) s₀ js = .ok s ∧ ∀ i < NPROC, (s.ptable i).state ≠ .runnable := by
  have hok : ∀ s ev, Serving L s → ¬ s.spinning = true → Ordinary ev → AllocsUnmapped L s ev →
      ∃ s', step L s ev = .ok s' ∧ Serving L s' := by
    intro s ev h hspin hev hun
    obtain ⟨s', hs'⟩ := h.step_ok (Bool.eq_false_iff.2 hspin) hev
    exact ⟨s', hs', h.keeps hun hs'⟩
  have hstop : ∀ s ev, s.spinning = true → step L s ev = .error .spinning := by
    intro s ev hspin
    unfold step
    rw [if_pos hspin]
  rcases run_stops (Serving L) (fun s => s.spinning = true) hok hstop
    (hboot.serving hcur hroom) hord hallocs with ⟨s, hs, -⟩ | ⟨herr, js, s, hjs, hs, h, hspin⟩
  · exact .inl ⟨s, hs⟩
  · exact .inr ⟨herr, js, s, hjs, hs, h.idle hspin⟩

theorem run_serves_fork :
    (∃ s, run (step smallKernel) fourProcesses (orphan ++ [call SYSCALL_FORK 0]) = .ok s) ∨
    run (step smallKernel) fourProcesses (orphan ++ [call SYSCALL_FORK 0]) = .error .spinning ∧
      ∃ js s, js <+: orphan ++ [call SYSCALL_FORK 0] ∧ run (step smallKernel) fourProcesses js = .ok s ∧
        ∀ i < NPROC, (s.ptable i).state ≠ .runnable := by
  refine run_serves fourProcesses_boot rfl (by decide +kernel) (fun ev hev => ?_) fork_allocsUnmapped
  obtain ⟨rax, rfl, hrax⟩ : ∃ rax, ev = call rax 0 ∧ Ordinary (call rax 0) := by
    simp only [orphan, List.cons_append, List.nil_append, List.mem_cons, List.not_mem_nil,
      or_false] at hev
    rcases hev with rfl | rfl | rfl | rfl | rfl
    all_goals exact ⟨_, rfl, by simp [call, Ordinary]⟩
  exact hrax

/-! ## How an event fails -/

theorem memshow_error {f : Fault} (h : memshow L s = .error f) : f = .assertion := by
  rw [memshow] at h
  by_cases h0 : (s.ptable 0).state = .free
  swap
  · rw [assert_error h0] at h
    cases h
    rfl
  rw [assert_ok h0, ok_bind] at h
  by_cases hview : s.viewer = 0
  · rw [if_pos hview] at h
    by_cases hv : (kalloc L s PAGESIZE).1 = 0
    · simp only [assert_error (not_not.2 hv)] at h
      cases h
      rfl
    · simp only [assert_ok hv] at h
      cases h
  · rw [if_neg hview] at h
    cases h

/-- The switch of `syscall` panics at a system call that does not exist. -/
theorem Entered.dispatch_error {regs : Regs} {s₁ : State} {f : Fault} (h : Entered L d s regs s₁)
    (hsafe : regs.rax = SYSCALL_FORK → ForkSafe s₁) (hres : dispatch L s₁ regs = .error f) :
    f = .panic := by
  by_cases hord : Ordinary (.syscall regs)
  · obtain ⟨r, s₂, hok⟩ := h.dispatch_ok hsafe hord
    rw [hok] at hres
    cases hres
  · simp only [Ordinary, not_or] at hord
    obtain ⟨h1, h2, h3, h4, h5⟩ := hord
    rw [dispatch, if_neg h1, if_neg h2, if_neg h3, if_neg h4, if_neg h5] at hres
    cases hres
    rfl

/-- An exception fails in an assertion, or it panics. -/
theorem Good.exception_error {regs : Regs} {f : Fault} (h : Good L d s) (hspin : s.spinning = false)
    (hres : WeensyOS.exception L s regs = .error f) : f = .assertion ∨ f = .panic := by
  have hok : ∀ t, Switches L s (.exception regs) t → ∃ s', WeensyOS.schedule L t = .ok s' :=
    fun t hsw => (h.switches hspin hsw).schedule_ok.imp fun _ hs' => hs'.1
  rw [WeensyOS.exception] at hres
  by_cases hshown : regs.intno ≠ INT_PF ∨ regs.errcode &&& PFERR_USER ≠ 0
  · simp only [if_pos hshown] at hres
    cases hshow : memshow L (saveRegs s regs) with
    | error e =>
      rw [hshow] at hres
      cases hres
      exact .inl (memshow_error hshow)
    | ok s₁ =>
      rw [hshow, ok_bind] at hres
      split_ifs at hres with h1 h2 h3
      · obtain ⟨s', hs'⟩ := hok _ (.timer h1 hshow)
        rw [hs'] at hres
        cases hres
      · cases hres
        exact .inr rfl
      · obtain ⟨s', hs'⟩ := hok _ (.fault h2 h3 hshow)
        rw [hs'] at hres
        cases hres
      · cases hres
        exact .inr rfl
  · -- a page fault of the kernel
    obtain ⟨hpf, huser⟩ := not_or.1 hshown
    rw [not_not] at hpf huser
    simp only [ok_bind, hpf, huser, if_true,
      if_neg (show INT_PF ≠ INT_TIMER by decide)] at hres
    cases hres
    exact .inr rfl

/-- **An event that fails** ends in an assertion or a panic, unless there is no process to make it. -/
theorem Good.step_error {f : Fault} (h : Good L d s) (hsafe : SafeFork s ev)
    (hres : WeensyOS.step L s ev = .error f) : f = .assertion ∨ f = .panic ∨ f = .spinning := by
  unfold WeensyOS.step at hres
  split_ifs at hres with hspin
  · cases hres
    exact .inr (.inr rfl)
  have hspin' : s.spinning = false := Bool.eq_false_iff.2 hspin
  cases ev with
  | syscall regs =>
    simp only [syscallEntry, WeensyOS.syscall] at hres
    cases hshow : memshow L (saveRegs s regs) with
    | error e =>
      rw [hshow] at hres
      cases hres
      exact .inl (memshow_error hshow)
    | ok s₁ =>
      have e := h.entered hspin' hshow
      have hlive : (saveRegs s regs).Live (saveRegs s regs).current :=
        saveRegs_live.2 (h.running hspin')
      have hsafe₁ : regs.rax = SYSCALL_FORK → ForkSafe s₁ := fun hrax =>
        (h.inv.saveRegs regs).forkSafe_quiet hlive ((h.inv.saveRegs regs).memshow hshow).2
          (forkSafe_saveRegs (hsafe hrax))
      rw [hshow, ok_bind] at hres
      cases hdisp : dispatch L s₁ regs with
      | error e' =>
        rw [hdisp] at hres
        cases hres
        exact .inr (.inl (e.dispatch_error hsafe₁ hdisp))
      | ok p =>
        rw [hdisp, ok_bind] at hres
        by_cases hrun : p.1.isSome → (p.2.ptable p.2.current).state = .runnable
        · simp only [assert_ok hrun] at hres
          cases hres
        · simp only [assert_error hrun] at hres
          cases hres
          exact .inl rfl
  | exception regs => exact (h.exception_error hspin' hres).imp_right .inl
  | store v i w => cases hres

/-! ## Fairness -/

/-- A process that waits stays able to run, and comes closer whenever the kernel switches. -/
theorem Good.waits (h : Good L (fun _ => 0) s) (hi : i < NPROC)
    (hstate : (s.ptable i).state = .runnable) (hne : ¬ (s.current = i ∧ s.spinning = false))
    (hun : AllocsUnmapped L s ev) (hstep : WeensyOS.step L s ev = .ok s') :
    (s'.current = i ∧ s'.spinning = false) ∨
      (Good L (fun _ => 0) s' ∧ (s'.ptable i).state = .runnable) ∧
        (if switching ev = true then ahead NPROC s'.current i < ahead NPROC s.current i
          else ahead NPROC s'.current i ≤ ahead NPROC s.current i) := by
  have hspin := step_spinning hstep
  have hic : i ≠ s.current := fun heq => hne ⟨heq.symm, hspin⟩
  have hlive : s.Live i := ⟨hi, by rw [hstate]; decide⟩
  have hstate' : (s'.ptable i).state = .runnable := by
    rw [(h.untouched hlive hic hstep).proc, hstate]
  have hgood := h.step_exact hun hstep
  obtain ⟨-, ⟨hsw, t, ht, hsched⟩ | ⟨hsw, hst⟩⟩ := step_cases hstep
  · obtain ⟨hspin', hcur | hcloser⟩ := (h.leaving hspin ht).turn (h.running hspin).1 hi hic hstate hsched
    · exact .inl ⟨hcur, hspin'.trans hspin⟩
    · exact .inr ⟨⟨hgood, hstate'⟩, by rw [if_pos hsw]; exact hcloser⟩
  · refine .inr ⟨⟨hgood, hstate'⟩, ?_⟩
    rw [if_neg (by rw [hsw]; decide), (h.stays hspin hst).current]

/-- **The scheduler is fair.**  A process that can run does run before the kernel has called `schedule`
    `NPROC - 1` times, whatever the other processes and the timer do. -/
theorem run_fair {evs' : List Event} (hboot : Boot L s₀)
    (hallocs : Meets (step L) (AllocsUnmapped L) s₀ (evs ++ evs'))
    (hrun : run (step L) s₀ evs = .ok s) (hspin : s.spinning = false) (hi : i < NPROC)
    (hstate : (s.ptable i).state = .runnable) (hrun' : run (step L) s evs' = .ok s')
    (hturns : NPROC - 1 ≤ evs'.countP switching) :
    ∃ js t, js <+: evs' ∧ run (step L) s js = .ok t ∧ t.current = i ∧ t.spinning = false := by
  obtain ⟨hallocs, hallocs'⟩ := meets_append.1 hallocs
  by_cases hcur : s.current = i
  · exact ⟨[], s, List.nil_prefix, rfl, hcur, hspin⟩
  refine run_waits (fun s => Good L (fun _ => 0) s ∧ (s.ptable i).state = .runnable)
    (fun s => s.current = i ∧ s.spinning = false) switching (fun s => ahead NPROC s.current i)
    (fun s ev s' h hne hun hstep => h.1.waits hi h.2 hne hun hstep)
    ⟨run_good hboot hallocs hrun, hstate⟩ (hallocs' s hrun) hrun' (lt_of_lt_of_le ?_ hturns)
  -- the other slots are between them at most
  simp only [NPROC] at hi ⊢
  rw [ahead]
  split_ifs <;> omega

/-- A process can yield as often as it likes. -/
theorem Turn.yields {l : List ℕ} {c V : ℕ} (h : Turn L d l c V s) (hview : WeensyOS.shown L s ≠ 0)
    (n : ℕ) :
    ∃ s', run (step L) s (List.replicate n (call SYSCALL_YIELD 0)) = .ok s' := by
  induction n generalizing s c V with
  | zero => exact ⟨s, rfl⟩
  | succ n ih =>
    have hc : c < NPROC := ((h.active.live c).2 h.mem).1
    obtain ⟨j, hj, -⟩ := find?_circle (P := fun i => decide (i ∈ l)) hc hc (decide_eq_true h.mem)
    obtain ⟨t, ht, hturn, -⟩ := h.yield hview hj
    have hview' : WeensyOS.shown L t ≠ 0 := by
      rw [hturn.shown hview]
      exact hview
    obtain ⟨s', hs'⟩ := ih hturn hview'
    exact ⟨s', run_cons.2 ⟨t, ht, hs'⟩⟩

theorem run_fair_yields : ∃ js t, js <+: List.replicate 15 (call SYSCALL_YIELD 0) ∧
    run (step smallKernel) fourProcesses js = .ok t ∧ t.current = 4 ∧ t.spinning = false := by
  have hview : shown smallKernel fourProcesses ≠ 0 := by decide +kernel
  obtain ⟨s', hrun⟩ := fourProcesses_turn.yields hview 15
  have hallocs : Meets (step smallKernel) (AllocsUnmapped smallKernel) fourProcesses
      ([] ++ List.replicate 15 (call SYSCALL_YIELD 0)) := by
    refine meets_of_forall fun ev hev s => ?_
    rw [List.eq_of_mem_replicate hev]
    intro hrax
    exact absurd hrax (by decide)
  exact run_fair fourProcesses_boot hallocs rfl rfl (by decide) rfl hrun (by decide)

end CProj.WeensyOS
