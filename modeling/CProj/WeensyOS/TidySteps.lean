/-
  A system of tidy programs.

  In a system whose processes all run tidy programs (`Tended`) every step keeps this order, and is a
  step of the processes (`Tended.step`): no process faults, no page is mapped twice, and no
  process finds another's data in its heap, whatever the timer does.
-/
import CProj.WeensyOS.Heaps

namespace CProj.WeensyOS

variable {σ : Type} {L : Layout} {s s' : State} {i c : ℕ} {P : Program σ} {H : Heap σ}

/-! ## The system -/

/-- The process in the slot `i` is in order. -/
structure Minds (H : Heap σ) (x : System σ) (i : ℕ) : Prop where
  runs : (x.kernel.ptable i).state = .runnable
  ok : H.ok (x.locals i)
  heap : HeapMapped H (x.locals i) x.kernel.mem (x.kernel.root i)

/-- Every process is in order. -/
structure Tended (L : Layout) (H : Heap σ) (x : System σ) : Prop where
  serving : Serving L x.kernel
  minds : ∀ i, x.kernel.Live i → Minds H x i

variable {x y : System σ} {locals : ℕ → σ} {regs : Regs} {r : Option ℤ}

/-! ## Accesses to a mapped page -/

section
variable {v p q k w : ℕ} (htr : translate s.mem (s.root s.current) v = some (p, q))
include htr

theorem userWord_mapped : userWord s v k = s.mem p k := by
  rw [State.root] at htr
  rw [userWord, htr]

theorem userStore_mapped (hq : IsUser q ∧ IsWritable q ∧ Canonical v ∧ k < 512) :
    userStore s v k w = { s with mem := s.mem.set p k w } := by
  rw [State.root] at htr
  rw [userStore, htr]
  exact if_pos hq

theorem allows_mapped {write : Bool} (hv : Canonical v) (huser : IsUser q)
    (hwr : write = true → IsWritable q) : Allows s v write := by
  rw [State.root] at htr
  rw [Allows, htr]
  exact ⟨hv, huser, hwr⟩

end

/-! ## Processes -/

/-- The processes of a system. -/
def System.processes (x : System σ) : Processes σ := ⟨{i | x.kernel.Live i}, x.locals⟩

/-- A step from `x` succeeds, and is a step of the processes. -/
def Orderly (L : Layout) (P : Program σ) (H : Heap σ) (x : System σ) (t : Tick) : Prop :=
  ∃ y, System.step L P x t = .ok y ∧ Tended L H y ∧ Processes.Step P x.processes y.processes

/-- A process that keeps its address space, and goes on with its heap. -/
theorem Minds.keep (h : Minds H x i) (hP : Tidy P H) (hstate : (s'.ptable i).state =
    (x.kernel.ptable i).state) (hsame : SameSpace x.kernel s' i)
    (hfollows : Follows H (x.locals i) (locals i)) : Minds H ⟨s', locals⟩ i :=
  ⟨hstate.trans h.runs, hfollows.ok, (h.heap.same (hP.bounds _ h.ok).2.2 hsame).follows hfollows⟩

theorem live_of_state (hstate : ∀ i, (s'.ptable i).state = (s.ptable i).state) :
    s'.Live i ↔ s.Live i := by
  rw [State.Live, State.Live, hstate]

/-- The local states after a call: the current process resumes. -/
theorem follows_update {v : ℤ} (hok : H.ok (locals i))
    (hc : i = c → Follows H (locals c) (P.resume (locals c) v)) :
    Follows H (locals i) (Function.update locals c (P.resume (locals c) v) i) := by
  rw [Function.update_apply]
  split_ifs with hi
  · rw [hi]
    exact hc hi
  · exact .refl hok

theorem Processes.Step.resumed {v : ℤ} (hstate : ∀ i, (s'.ptable i).state = (x.kernel.ptable i).state)
    (hc : x.kernel.Live c) (hexit : P.request (x.locals c) ≠ .exit)
    (hgetpid : P.request (x.locals c) = .getpid → v = c)
    (hfork : P.request (x.locals c) = .fork → v = -1) : Processes.Step P x.processes
      (System.processes ⟨s', Function.update x.locals c (P.resume (x.locals c) v)⟩) := by
  have heq : System.processes ⟨s', Function.update x.locals c (P.resume (x.locals c) v)⟩ =
      ⟨x.processes.live, Function.update x.locals c (P.resume (x.locals c) v)⟩ :=
    Processes.ext (Set.ext fun _ => live_of_state hstate) rfl
  rw [heq]
  exact .resume (x := x.processes) hc hexit hgetpid hfork

/-! ### Calls -/

/-- A system call of the current process. -/
theorem step_call {req : Request} (hspin : x.kernel.spinning = false)
    (hreq : P.request (x.locals x.kernel.current) = req) (hstore : ∀ va n w, req ≠ .store va n w)
    (hload : ∀ va n, req ≠ .load va n)
    (hentry : syscallEntry L x.kernel { regs with rax := req.args.1, rdi := req.args.2 } =
      .ok (r, s')) :
    System.step L P x (.proceed regs) = .ok ⟨s', answer P x.locals x.kernel.current r s'⟩ := by
  rw [System.step]
  simp only [hspin, Bool.false_eq_true, if_false, hreq]
  cases req with
  | store va n w => exact absurd rfl (hstore va n w)
  | load va n => exact absurd rfl (hload va n)
  | _ =>
    simp only [hentry, ok_bind]
    rfl

/-- A kernel that has nothing to run takes no step. -/
theorem step_of_spinning {t : Tick} (hspin : x.kernel.spinning = true) :
    System.step L P x t = .error .spinning := by
  cases t with
  | proceed regs =>
    rw [System.step]
    exact if_pos hspin
  | interrupt regs =>
    rw [System.step]
    unfold WeensyOS.step
    rw [if_pos hspin]
    rfl

/-- `sys_panic()` does not return. -/
theorem step_panic {y : System σ} (hreq : P.request (x.locals x.kernel.current) = .panic) :
    System.step L P x (.proceed regs) ≠ .ok y := by
  intro hstep
  rw [System.step] at hstep
  simp only [hreq] at hstep
  split_ifs at hstep
  obtain ⟨⟨r, s'⟩, hentry, -⟩ := bind_eq_ok.1 hstep
  obtain ⟨s₁, -, hdisp⟩ := syscallEntry_ok hentry
  cases dispatch_cases hdisp with
  | getpid hrax => exact absurd hrax (show SYSCALL_PANIC ≠ SYSCALL_GETPID by decide)
  | yield hrax _ => exact absurd hrax (show SYSCALL_PANIC ≠ SYSCALL_YIELD by decide)
  | pageAlloc hrax _ => exact absurd hrax (show SYSCALL_PANIC ≠ SYSCALL_PAGE_ALLOC by decide)
  | fork hrax _ => exact absurd hrax (show SYSCALL_PANIC ≠ SYSCALL_FORK by decide)
  | exit hrax _ _ => exact absurd hrax (show SYSCALL_PANIC ≠ SYSCALL_EXIT by decide)

theorem request_ne_panic_of_step {y : System σ} {t : Tick} (h : System.step L P x t = .ok y) :
    (∃ regs, t = .interrupt regs) ∨ P.request (x.locals x.kernel.current) ≠ .panic := by
  cases t with
  | interrupt regs => exact .inl ⟨regs, rfl⟩
  | proceed regs => exact .inr fun hreq => step_panic hreq h

theorem Serving.entry_ok (h : Serving L s) (hspin : s.spinning = false)
    (hord : Ordinary (.syscall regs)) : ∃ r s' s₁, syscallEntry L s regs = .ok (r, s') ∧
      memshow L (saveRegs s regs) = .ok s₁ ∧ Answers L s₁ regs r s' ∧
      WeensyOS.step L s (.syscall regs) = .ok s' := by
  obtain ⟨s', hstep⟩ := h.step_ok hspin hord
  have hstep' := hstep
  unfold WeensyOS.step at hstep'
  rw [if_neg (by rw [hspin]; decide)] at hstep'
  obtain ⟨⟨r, s₂⟩, hentry, heq⟩ := bind_eq_ok.1 hstep'
  cases heq
  obtain ⟨s₁, hshow, hdisp⟩ := syscallEntry_ok hentry
  exact ⟨r, s', s₁, hentry, hshow, dispatch_cases hdisp, hstep⟩

/-- A call that is no allocation does not map a page twice. -/
theorem allocsUnmapped_of_ne (hrax : regs.rax ≠ SYSCALL_PAGE_ALLOC) :
    AllocsUnmapped L s (.syscall regs) := fun h => absurd h hrax

theorem answer_some {v : ℤ} (hreq : P.request (locals c) ≠ .fork ∨ v ≤ 0) :
    answer P locals c (some v) s = Function.update locals c (P.resume (locals c) v) := by
  rw [answer]
  exact if_neg fun h => hreq.elim (fun hne => hne h.1) fun hle => absurd h.2 (not_lt.2 hle)

theorem Tended.current (h : Tended L H x) (hspin : x.kernel.spinning = false) :
    x.kernel.Live x.kernel.current := h.serving.good.running hspin

section
variable (h : Tended L H x) (hP : Tidy P H)
include h hP

/-- No address space has changed, and one process resumes with its heap. -/
theorem Tended.resumed {v : ℤ} (hserving : Serving L s')
    (hstate : ∀ i, (s'.ptable i).state = (x.kernel.ptable i).state)
    (hsame : ∀ i, x.kernel.Live i → SameSpace x.kernel s' i)
    (hfollows : Follows H (x.locals c) (P.resume (x.locals c) v)) :
    Tended L H ⟨s', Function.update x.locals c (P.resume (x.locals c) v)⟩ := by
  refine ⟨hserving, fun i hi => ?_⟩
  have hlive := (live_of_state hstate).1 hi
  exact (h.minds i hlive).keep hP (hstate i) (hsame i hlive)
    (follows_update (h.minds i hlive).ok fun _ => hfollows)

variable (hspin : x.kernel.spinning = false)
include hspin

/-- `sys_getpid()` and `sys_yield()` -/
theorem Tended.getpid_yield {req : Request} (hreq : P.request (x.locals x.kernel.current) = req)
    (hcall : req = .getpid ∨ req = .yield) : Orderly L P H x (.proceed regs) := by
  have hne : req.args.1 ≠ SYSCALL_PAGE_ALLOC ∧ req.args.1 ≠ SYSCALL_FORK ∧
      req.args.1 ≠ SYSCALL_EXIT ∧ (req.args.1 = SYSCALL_GETPID → req = .getpid) ∧
      (req.args.1 = SYSCALL_YIELD → req = .yield) := by
    rcases hcall with rfl | rfl <;> decide
  have hord : Ordinary (.syscall { regs with rax := req.args.1, rdi := req.args.2 }) := by
    rcases hcall with rfl | rfl
    · exact .inl rfl
    · exact .inr (.inl rfl)
  obtain ⟨r, s', s₁, hentry, hshow, hans, hstep⟩ := h.serving.entry_ok hspin hord
  have e := h.serving.good.entered hspin hshow
  have hlivec := h.current hspin
  have hserving := h.serving.keeps (allocsUnmapped_of_ne hne.1) hstep
  have hresume : ∀ v, Follows H (x.locals x.kernel.current)
      (P.resume (x.locals x.kernel.current) v) := by
    refine fun v => hP.call _ (h.minds _ hlivec).ok ?_ v
    rw [hreq]
    exact hcall.imp_right .inl
  have hfork : P.request (x.locals x.kernel.current) ≠ .fork := by
    rw [hreq]
    rcases hcall with rfl | rfl <;> exact Request.noConfusion
  have hexit : P.request (x.locals x.kernel.current) ≠ .exit := by
    rw [hreq]
    rcases hcall with rfl | rfl <;> exact Request.noConfusion
  refine ⟨_, step_call hspin hreq (fun va n w => ?_) (fun va n => ?_) hentry, ?_⟩
  · rcases hcall with rfl | rfl <;> exact Request.noConfusion
  · rcases hcall with rfl | rfl <;> exact Request.noConfusion
  have hsame : ∀ i, x.kernel.Live i → SameSpace x.kernel s₁ i := fun i hi =>
    h.serving.good.same_entered hshow hi
  cases hans with
  | getpid hrax =>
    rw [answer_some (.inl hfork)]
    refine ⟨h.resumed hP hserving e.state hsame (hresume _), .resumed e.state hlivec hexit (fun _ => ?_)
      fun hf => absurd hf hfork⟩
    rw [e.inv.pid _ e.live, e.current]
  | yield hrax hsched =>
    have hstate : ∀ i, (s'.ptable i).state = (x.kernel.ptable i).state := fun i => by
      rw [(schedule_keeps hsched).1, ← e.state i, saveRegs]
      by_cases hi : i = s₁.current
      · rw [hi, setProc_self]
      · rw [setProc_of_ne hi]
    refine ⟨h.resumed hP hserving hstate (fun i hi => ?_) (hresume _), .resumed hstate hlivec hexit
      (fun hg => ?_) fun hf => absurd hf hfork⟩
    · exact (hsame i hi).trans (same_saveRegs.trans (same_schedule hsched))
    · rw [hreq, hne.2.2.2.2 hrax] at hg
      cases hg
  | pageAlloc hrax _ => exact absurd hrax hne.1
  | fork hrax _ => exact absurd hrax hne.2.1
  | exit hrax _ _ => exact absurd hrax hne.2.2.1

/-- A timer interrupt. -/
theorem Tended.interrupt : Orderly L P H x (.interrupt regs) := by
  have hord : Ordinary (.exception { regs with intno := INT_TIMER }) := .inl rfl
  obtain ⟨s', hstep⟩ := h.serving.step_ok hspin hord
  have hun : AllocsUnmapped L x.kernel (.exception { regs with intno := INT_TIMER }) := trivial
  have hserving := h.serving.keeps hun hstep
  obtain ⟨-, ⟨-, t, hsw, hsched⟩ | ⟨hsw, -⟩⟩ := step_cases hstep
  swap
  · cases hsw
  cases hsw with
  | fault hint _ _ => exact absurd hint (show INT_TIMER ≠ INT_PF by decide)
  | timer _ hshow =>
    have hstate : ∀ i, (s'.ptable i).state = (x.kernel.ptable i).state := fun i => by
      rw [(schedule_keeps hsched).1, (h.serving.good.entered hspin hshow).state]
    refine ⟨⟨s', x.locals⟩, ?_, ⟨hserving, fun i hi => ?_⟩, ?_⟩
    · rw [System.step, hstep]
      rfl
    · have hlive := (live_of_state hstate).1 hi
      exact (h.minds i hlive).keep hP (hstate i) ((h.serving.good.same_entered hshow hlive).trans
        (same_schedule hsched)) (.refl (h.minds i hlive).ok)
    · have heq : System.processes ⟨s', x.locals⟩ = x.processes :=
        Processes.ext (Set.ext fun _ => live_of_state hstate) rfl
      rw [heq]
      exact .idle

/-- `sys_exit()` -/
theorem Tended.exit (hreq : P.request (x.locals x.kernel.current) = .exit) :
    Orderly L P H x (.proceed regs) := by
  have hord : Ordinary (.syscall { regs with rax := SYSCALL_EXIT, rdi := 0 }) :=
    .inr (.inr (.inr (.inr rfl)))
  obtain ⟨r, s', s₁, hentry, hshow, hans, hstep⟩ := h.serving.entry_ok hspin hord
  have e := h.serving.good.entered hspin hshow
  have hserving := h.serving.keeps (allocsUnmapped_of_ne (show SYSCALL_EXIT ≠ _ by decide)) hstep
  refine ⟨_, step_call hspin hreq (fun _ _ _ => Request.noConfusion) (fun _ _ => Request.noConfusion)
    hentry, ?_⟩
  cases hans with
  | exit _ hexit hsched =>
    rw [e.inv.syscallExit e.live] at hexit
    cases hexit
    have hptable := (schedule_keeps hsched).1
    have hlivec := h.current hspin
    have hgone : (s'.ptable x.kernel.current).state = .free := by
      rw [hptable, ← e.current, State.exited, setProc_self]
    have hothers : ∀ i, i ≠ x.kernel.current →
        (s'.ptable i).state = (x.kernel.ptable i).state := fun i hi => by
      rw [hptable, State.exited, setProc_of_ne (by rw [e.current]; exact hi)]
      exact e.state i
    refine ⟨⟨hserving, fun i hi => ?_⟩, ?_⟩
    · have hne : i ≠ x.kernel.current := by
        rintro rfl
        exact hi.2 hgone
      have hlive : x.kernel.Live i := ⟨hi.1, by rw [← hothers i hne]; exact hi.2⟩
      exact (h.minds i hlive).keep hP (hothers i hne)
        (h.serving.good.untouched hlive hne hstep).same
        (follows_update (h.minds i hlive).ok fun heq => absurd heq hne)
    · have heq : ∀ locals : ℕ → σ, System.processes ⟨s', locals⟩ =
          ⟨x.processes.live \ {x.kernel.current}, locals⟩ := by
        refine fun locals => Processes.ext (Set.ext fun i => ?_) rfl
        change s'.Live i ↔ x.kernel.Live i ∧ i ≠ x.kernel.current
        by_cases hi : i = x.kernel.current
        · refine iff_of_false (fun hl => hl.2 ?_) fun hl => hl.2 hi
          rw [hi]
          exact hgone
        · rw [State.Live, State.Live, hothers i hi]
          exact (and_iff_left hi).symm
      rw [heq]
      exact .exit (x := x.processes) hlivec hreq
  | getpid hrax => exact absurd hrax (show SYSCALL_EXIT ≠ SYSCALL_GETPID by decide)
  | yield hrax _ => exact absurd hrax (show SYSCALL_EXIT ≠ SYSCALL_YIELD by decide)
  | pageAlloc hrax _ => exact absurd hrax (show SYSCALL_EXIT ≠ SYSCALL_PAGE_ALLOC by decide)
  | fork hrax _ => exact absurd hrax (show SYSCALL_EXIT ≠ SYSCALL_FORK by decide)

/-- `sys_fork()` -/
theorem Tended.fork (hreq : P.request (x.locals x.kernel.current) = .fork) :
    Orderly L P H x (.proceed regs) := by
  have hord : Ordinary (.syscall { regs with rax := SYSCALL_FORK, rdi := 0 }) :=
    .inr (.inr (.inr (.inl rfl)))
  obtain ⟨r, s', s₁, hentry, hshow, hans, hstep⟩ := h.serving.entry_ok hspin hord
  have e := h.serving.good.entered hspin hshow
  have hserving := h.serving.keeps (allocsUnmapped_of_ne (show SYSCALL_FORK ≠ _ by decide)) hstep
  have hlivec := h.current hspin
  have hm := h.minds _ hlivec
  have hresume : ∀ v, Follows H (x.locals x.kernel.current)
      (P.resume (x.locals x.kernel.current) v) := fun v =>
    hP.call _ hm.ok (.inr (.inr hreq)) v
  refine ⟨_, step_call hspin hreq (fun _ _ _ => Request.noConfusion) (fun _ _ => Request.noConfusion)
    hentry, ?_⟩
  cases hans with
  | fork _ hcall =>
    have hsafe := e.inv.forkSafe e.live
    obtain ⟨k, s₂, hcall', -, hres⟩ := e.inv.fork_ok e.live hsafe
    cases hcall.symm.trans hcall'
    have hsame : ∀ i, x.kernel.Live i → SameSpace x.kernel s' i := fun i hi =>
      (h.serving.good.same_entered hshow hi).trans
        (e.inv.same_fork e.live hsafe hcall ((live_of_state e.state).2 hi))
    rcases hres with ⟨rfl, hstates⟩ | ⟨slot, rfl, hdup⟩
    · -- there is no slot, or no memory
      have hstate : ∀ i, (s'.ptable i).state = (x.kernel.ptable i).state := fun i =>
        (hstates i).trans (e.state i)
      rw [answer_some (.inr (by decide))]
      refine ⟨h.resumed hP hserving hstate hsame (hresume _), .resumed hstate hlivec ?_ ?_ fun _ => rfl⟩
      · rw [hreq]
        exact Request.noConfusion
      · rw [hreq]
        exact Request.noConfusion
    · obtain ⟨hslot, hlt, hfree, -⟩ := hdup.slot
      have hans : answer P x.locals x.kernel.current (some (slot : ℤ)) s' =
          Function.update (Function.update x.locals x.kernel.current
            (P.resume (x.locals x.kernel.current) slot)) slot
            (P.resume (x.locals x.kernel.current) 0) := by
        rw [answer]
        simp only [Int.toNat_natCast, hdup.regs]
        exact if_pos ⟨hreq, by omega⟩
      have hchild : (s'.ptable slot).state = .runnable := by
        rw [hdup.state, e.state, e.current]
        exact hm.runs
      have hothers : ∀ i, i ≠ slot → (s'.ptable i).state = (x.kernel.ptable i).state := fun i hi => by
        rw [hdup.procs i hi]
        exact e.state i
      rw [hans]
      refine ⟨⟨hserving, fun i hi => ?_⟩, ?_⟩
      · by_cases hi' : i = slot
        · subst hi'
          refine ⟨hchild, ?_, ?_⟩
          · simp only [Function.update_self]
            exact (hresume 0).ok
          · simp only [Function.update_self]
            refine HeapMapped.copied (hP.bounds _ (hresume 0).ok) ?_ hdup
            have hheap := (hm.heap.same (hP.bounds _ hm.ok).2.2
              (h.serving.good.same_entered hshow hlivec)).follows (hresume 0)
            have hroot : s₁.root s₁.current = s₁.root x.kernel.current := by rw [e.current]
            rw [hroot]
            exact hheap
        · have hlive : x.kernel.Live i := ⟨hi.1, by rw [← hothers i hi']; exact hi.2⟩
          refine (h.minds i hlive).keep hP (hothers i hi') (hsame i hlive) ?_
          rw [Function.update_of_ne hi']
          exact follows_update (h.minds i hlive).ok fun _ => hresume slot
      · have heq : ∀ locals : ℕ → σ, System.processes ⟨s', locals⟩ =
            ⟨insert slot x.processes.live, locals⟩ := by
          refine fun locals => Processes.ext (Set.ext fun i => ?_) rfl
          change s'.Live i ↔ i = slot ∨ x.kernel.Live i
          by_cases hi : i = slot
          · refine iff_of_true ⟨by rw [hi]; exact hlt, ?_⟩ (.inl hi)
            rw [hi, hchild]
            decide
          · rw [State.Live, State.Live, hothers i hi]
            exact (or_iff_right hi).symm
        rw [heq]
        refine .fork (x := x.processes) hlivec hreq hslot fun hl => hl.2 ?_
        rw [← e.state, hfree]
  | getpid hrax => exact absurd hrax (show SYSCALL_FORK ≠ SYSCALL_GETPID by decide)
  | yield hrax _ => exact absurd hrax (show SYSCALL_FORK ≠ SYSCALL_YIELD by decide)
  | pageAlloc hrax _ => exact absurd hrax (show SYSCALL_FORK ≠ SYSCALL_PAGE_ALLOC by decide)
  | exit hrax _ _ => exact absurd hrax (show SYSCALL_FORK ≠ SYSCALL_EXIT by decide)

/-- `sys_page_alloc()` -/
theorem Tended.pageAlloc {addr : ℕ} (hreq : P.request (x.locals x.kernel.current) = .pageAlloc addr) :
    Orderly L P H x (.proceed regs) := by
  have hlivec := h.current hspin
  have hm := h.minds _ hlivec
  obtain ⟨rfl, hlt, hfail, hok, hbase, htop, hnew, hknown⟩ := hP.alloc _ addr hm.ok hreq
  generalize haddr : H.top (x.locals x.kernel.current) * PAGESIZE = addr at *
  have hord : Ordinary (.syscall { regs with rax := SYSCALL_PAGE_ALLOC, rdi := addr }) :=
    .inr (.inr (.inl rfl))
  obtain ⟨r, s', s₁, hentry, hshow, hans, hstep⟩ := h.serving.entry_ok hspin hord
  have e := h.serving.good.entered hspin hshow
  have hsame := h.serving.good.same_entered hshow hlivec
  have habs : translate s₁.mem (s₁.root s₁.current) (H.top (x.locals x.kernel.current)) = none := by
    rw [e.current]
    exact (hsame.translate _).trans (hm.heap.unmapped _ le_rfl hlt)
  have hun : AllocsUnmapped L x.kernel
      (.syscall { regs with rax := SYSCALL_PAGE_ALLOC, rdi := addr }) := by
    intro _ t _ ht _
    cases hshow.symm.trans ht
    rw [← haddr]
    change translate _ _ (_ * PAGESIZE / PAGESIZE) = none
    rw [Nat.mul_div_cancel _ (by decide)]
    exact habs
  have hserving := h.serving.keeps hun hstep
  refine ⟨_, step_call hspin hreq (fun _ _ _ => Request.noConfusion) (fun _ _ => Request.noConfusion)
    hentry, ?_⟩
  have hne : P.request (x.locals x.kernel.current) ≠ .fork ∧
      P.request (x.locals x.kernel.current) ≠ .exit ∧
      P.request (x.locals x.kernel.current) ≠ .getpid := by
    rw [hreq]
    exact ⟨Request.noConfusion, Request.noConfusion, Request.noConfusion⟩
  cases hans with
  | @pageAlloc k _ _ hcall =>
    have hrest := (e.inv.pageAlloc e.live hcall).2.1
    have hstate : ∀ j, (s'.ptable j).state = (x.kernel.ptable j).state := fun j => by
      rw [hrest]
      exact e.state j
    rw [answer_some (.inl hne.1)]
    refine ⟨⟨hserving, fun i hi => ?_⟩, .resumed hstate hlivec hne.2.1 (fun hg => absurd hg hne.2.2)
      fun hf => absurd hf hne.1⟩
    have hlive := (live_of_state hstate).1 hi
    by_cases hic : i = x.kernel.current
    swap
    · exact (h.minds i hlive).keep hP (hstate i) (h.serving.good.untouched hlive hic hstep).same
        (follows_update (h.minds i hlive).ok fun heq => absurd heq hic)
    subst hic
    obtain ⟨hpages, hspace⟩ := e.inv.pageAlloc_space e.live (haddr ▸ hcall)
    have hheap := hm.heap.same hlt.le hsame
    rw [e.current] at hpages hspace
    rcases hspace with ⟨rfl, hother⟩ | ⟨rfl, hother, hhere⟩
    · refine ⟨(hstate _).trans hm.runs, ?_, ?_⟩
      · simp only [Function.update_self]
        exact hfail.ok
      · simp only [Function.update_self]
        refine HeapMapped.follows (.same hheap hlt.le ⟨hother, ?_⟩) hfail
        exact fun v n q hv htr huser hwr hcon => hpages v n q hv htr huser hwr hcon
    · refine ⟨(hstate _).trans hm.runs, ?_, ?_⟩
      · simp only [Function.update_self]
        exact hok
      · simp only [Function.update_self]
        exact hheap.grow hlt hbase htop hnew hknown hother hpages hhere
  | getpid hrax => exact absurd hrax (show SYSCALL_PAGE_ALLOC ≠ SYSCALL_GETPID by decide)
  | yield hrax _ => exact absurd hrax (show SYSCALL_PAGE_ALLOC ≠ SYSCALL_YIELD by decide)
  | fork hrax _ => exact absurd hrax (show SYSCALL_PAGE_ALLOC ≠ SYSCALL_FORK by decide)
  | exit hrax _ _ => exact absurd hrax (show SYSCALL_PAGE_ALLOC ≠ SYSCALL_EXIT by decide)

/-- The page table allows the accesses of a tidy program. -/
theorem Tended.reach {v : ℕ} (hv : v = CONSOLE_PAGE ∨ H.base (x.locals x.kernel.current) ≤ v ∧
    v < H.top (x.locals x.kernel.current)) : Canonical v ∧ ∃ n q,
      translate x.kernel.mem (x.kernel.root x.kernel.current) v = some (n, q) ∧ pwu q = 7 ∧
        (v = CONSOLE_PAGE → n = CONSOLE_PAGE) := by
  have hlivec := h.current hspin
  have hm := h.minds _ hlivec
  have hbounds := hP.bounds _ hm.ok
  rcases hv with rfl | ⟨hlo, hhi⟩
  · have hlow : CONSOLE_PAGE < 256 := by decide
    obtain ⟨q, htr, hq⟩ := (h.serving.good.inv.procs _ hlivec).half CONSOLE_PAGE hlow
    rw [kernelPerm, if_pos rfl] at hq
    exact ⟨canonical_of_lt (by omega), _, q, htr, hq, fun _ => rfl⟩
  · obtain ⟨n, q, htr, hq, -, -⟩ := hm.heap.mapped v hlo hhi
    have hstack : STACK_PAGE = 767 := rfl
    refine ⟨canonical_of_lt (by omega), n, q, htr, hq, fun hv => ?_⟩
    have hlow : CONSOLE_PAGE < 256 := by decide
    omega

/-- A store of the program. -/
theorem Tended.store {va n w : ℕ} (hreq : P.request (x.locals x.kernel.current) = .store va n w) :
    Orderly L P H x (.proceed regs) := by
  have hlivec := h.current hspin
  have hm := h.minds _ hlivec
  have hplace := hP.store _ va n w hm.ok hreq
  obtain ⟨hv, p, q, htr, hq, hcon⟩ := h.reach hP hspin (v := va / PAGESIZE)
    (hplace.imp And.left fun hp => ⟨hp.1, hp.2.1⟩)
  obtain ⟨huser, hwr⟩ := user_of_seven hq
  have hidx : va % PAGESIZE / 8 < 512 := by
    rw [PAGESIZE]
    omega
  generalize hv' : va / PAGESIZE = v at *
  generalize hi' : va % PAGESIZE / 8 = k at *
  generalize hw : putBytes (userWord x.kernel v k) (va % 8) n w = word
  have hstore : userStore x.kernel v k word = { x.kernel with mem := x.kernel.mem.set p k word } :=
    userStore_mapped htr ⟨huser, hwr, hv, hidx⟩
  have hword : word = putBytes (x.kernel.mem p k) (va % 8) n w := by
    rw [← hw, userWord_mapped htr]
  have hstep : WeensyOS.step L x.kernel (.store v k word) = .ok (userStore x.kernel v k word) := by
    unfold WeensyOS.step
    rw [if_neg (by rw [hspin]; decide)]
  have hallows : Allows x.kernel v true := allows_mapped htr hv huser fun _ => hwr
  obtain ⟨-, hquiet⟩ := h.serving.good.inv.store hlivec v k word
  have hun : AllocsUnmapped L x.kernel (.store v k word) := trivial
  have hserving := h.serving.keeps hun hstep
  have hstate : ∀ i, ((userStore x.kernel v k word).ptable i).state = (x.kernel.ptable i).state :=
    fun i => by rw [hquiet.ptable]
  have hne : P.request (x.locals x.kernel.current) ≠ .fork ∧
      P.request (x.locals x.kernel.current) ≠ .exit ∧
      P.request (x.locals x.kernel.current) ≠ .getpid := by
    rw [hreq]
    exact ⟨Request.noConfusion, Request.noConfusion, Request.noConfusion⟩
  refine ⟨⟨userStore x.kernel v k word, Function.update x.locals x.kernel.current
    (P.resume (x.locals x.kernel.current) 0)⟩, ?_, ⟨hserving, fun i hi => ?_⟩,
    .resumed hstate hlivec hne.2.1 (fun hg => absurd hg hne.2.2) fun hf => absurd hf hne.1⟩
  · rw [System.step]
    simp only [hspin, Bool.false_eq_true, if_false, hreq, hv', hi', if_pos hallows, hw, hstep, ok_bind]
    rfl
  have hlive : x.kernel.Live i := hquiet.live.1 hi
  by_cases hic : i = x.kernel.current
  swap
  · exact (h.minds i hlive).keep hP (hstate i) (h.serving.good.untouched hlive hic hstep).same
      (follows_update (h.minds i hlive).ok fun heq => absurd heq hic)
  subst hic
  have htranslate : ∀ u, translate (userStore x.kernel v k word).mem
      ((userStore x.kernel v k word).root x.kernel.current) u =
        translate x.kernel.mem (x.kernel.root x.kernel.current) u := by
    intro u
    rw [State.root, hquiet.ptable]
    exact (hquiet.agree _ hlivec).translate
  rcases hplace with ⟨hvc, hfollows⟩ | ⟨hlo, hhi, hok, hbase, htop, hkept⟩
  · -- the console is no page of the heap
    refine (h.minds _ hlivec).keep hP (hstate _) ⟨htranslate, fun u p' q' _ _ _ _ hcon' => ?_⟩
      (follows_update hm.ok fun _ => hfollows)
    rw [hstore]
    exact funext fun j => set_of_ne fun heq => hcon' (heq.1.trans (hcon hvc))
  · refine ⟨(hstate _).trans hm.runs, ?_, ?_⟩
    · simp only [Function.update_self]
      exact hok
    · simp only [Function.update_self]
      refine hm.heap.stored (h.serving.good.inv.procs _ hlivec) (hP.bounds _ hm.ok) hbase htop hlo hhi
        htr huser htranslate (by rw [hstore]) fun u old hold heq => ?_
      have hkept := hkept u old hold
      by_cases hu : u = v ∧ k = 0
      · rw [if_pos hu, hword, hu.2, ← heq hu.1]
        rwa [if_pos hu] at hkept
      · rw [if_neg hu]
        rwa [if_neg hu] at hkept

/-- A load of the program. -/
theorem Tended.load {va n : ℕ} (hreq : P.request (x.locals x.kernel.current) = .load va n) :
    Orderly L P H x (.proceed regs) := by
  have hlivec := h.current hspin
  have hm := h.minds _ hlivec
  obtain ⟨hplace, hfollows⟩ := hP.load _ va n hm.ok hreq
  obtain ⟨hv, p, q, htr, hq, -⟩ := h.reach hP hspin hplace
  have hallows : Allows x.kernel (va / PAGESIZE) false :=
    allows_mapped htr hv (user_of_seven hq).1 fun hf => Bool.noConfusion hf
  refine ⟨⟨x.kernel, Function.update x.locals x.kernel.current (P.resume (x.locals x.kernel.current)
    (userWord x.kernel (va / PAGESIZE) (va % PAGESIZE / 8) / 256 ^ (va % 8) % 256 ^ n : ℕ))⟩, ?_,
    h.resumed hP h.serving (fun _ => rfl) (fun _ _ => .refl) (hfollows _), .resumed (fun _ => rfl)
      hlivec ?_ ?_ ?_⟩
  · rw [System.step]
    simp only [hspin, Bool.false_eq_true, if_false, hreq, if_pos hallows]
  all_goals
    rw [hreq]
    exact Request.noConfusion

/-- **One step** of the system: the processor goes on with a program, or the timer interrupts it. -/
theorem Tended.step (t : Tick)
    (hpanic : (∃ regs, t = .interrupt regs) ∨ P.request (x.locals x.kernel.current) ≠ .panic) :
    Orderly L P H x t := by
  cases t with
  | interrupt regs => exact h.interrupt hP hspin
  | proceed regs =>
    cases hreq : P.request (x.locals x.kernel.current) with
    | getpid => exact h.getpid_yield hP hspin hreq (.inl rfl)
    | yield => exact h.getpid_yield hP hspin hreq (.inr rfl)
    | panic =>
      rcases hpanic with ⟨regs', hint⟩ | hne
      · cases hint
      · exact absurd hreq hne
    | pageAlloc addr => exact h.pageAlloc hP hspin hreq
    | fork => exact h.fork hP hspin hreq
    | exit => exact h.exit hP hspin hreq
    | store va n w => exact h.store hP hspin hreq
    | load va n => exact h.load hP hspin hreq

end

end CProj.WeensyOS
