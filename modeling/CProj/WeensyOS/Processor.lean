/-
  The processor and the kernel together.

  * `Processor.Step` is a step of the machine: the processor executes the code of a process, or an
    exception or a system call takes it through the routines of `k-exception.S` and the C code
    (`step`) to the next process.
  * `Virtual` is what the processes should see of it: each has registers of its own.  An exception
    changes none of them, a system call only those that `u-lib.hh` gives up (`Answered`).
  * `Backed.step` shows that every step of the machine is a step of the virtual processors.
-/
import CProj.WeensyOS.ContextSwitch
import CProj.WeensyOS.UserRuns

namespace CProj.WeensyOS

/-! ## The machine -/

structure Processor where
  cpu : Cpu
  kernel : State

/-- The memory of the processor shows the process table and `current`. -/
structure Shows (A : Labels) (m : ℕ → ℕ) (s : State) : Prop where
  current : m A.current = A.proc s.current
  procs : ∀ i < NPROC, ProcAt m (A.proc i) (s.ptable i)

/-- The C code calls `exception_return(current)` with the processor `c`. -/
structure Leaves (A : Labels) (c : Cpu) (s : State) : Prop where
  argument : c.reg .rdi = A.proc s.current
  shows : Shows A c.mem s

/-- `int` as `uintptr_t`. -/
def word (k : ℤ) : ℕ := (k % 2 ^ 64).toNat

/-- The registers that C code keeps, as far as the kernel can change them. -/
def calleeSaved : List Reg := [.rbx, .rbp, .r12, .r13, .r14, .r15, .fs, .gs]

/-- The call of `syscall` from `c` returns `k`, with `c'`; it has not written to its argument. -/
structure Returns (A : Labels) (c c' : Cpu) (k : ℤ) (s : State) : Prop where
  result : c'.reg .rax = word k
  stack : c'.reg .rsp = c.reg .rsp
  saved : ∀ r ∈ calleeSaved, c'.reg r = c.reg r
  argument : ∀ j < 24, c'.mem (c.reg .rdi + 8 * j) = c.mem (c.reg .rdi + 8 * j)
  shows : Shows A c'.mem s

/-- One step, and the event of the kernel.  The C code does what `step` says if memory shows the
    kernel's state when it is called (`hcode`).  When the scheduler spins, no process runs any more,
    and nothing is said about the processor. -/
inductive Processor.Step (L : Layout) (A : Labels) (x : Processor) : Option Event → Processor → Prop
  | compute {f : Reg → ℕ} (hspin : x.kernel.spinning = false) (h : UserMode f) :
    Step L A x none ⟨{ x.cpu with reg := f }, x.kernel⟩
  | store {f : Reg → ℕ} {v i w : ℕ} {s : State} (h : UserMode f)
    (hstep : step L x.kernel (.store v i w) = .ok s) :
    Step L A x (some (.store v i w)) ⟨{ x.cpu with reg := f }, s⟩
  | exception {num errcode handler : ℕ} {c c' c'' : Cpu} {s : State}
    (hentry : exec (exceptionEntryNum num ++ exceptionEntry L) (deliver num errcode handler x.cpu) = .ok c)
    (hstep : step L x.kernel (.exception (Regs.at c.mem (c.reg .rdi))) = .ok s)
    (hcode : Shows A c.mem x.kernel → s.spinning = false → Leaves A c' s)
    (hleave : s.spinning = false → exec exceptionReturn c' = .ok c'') :
    Step L A x (some (.exception (Regs.at c.mem (c.reg .rdi)))) ⟨c'', s⟩
  /-- `syscall` calls `schedule` -/
  | switch {entry : ℕ} {c c' c'' : Cpu} {s : State} (hspin : x.kernel.spinning = false)
    (hentry : exec (syscallEnter L) (syscallInstr entry x.cpu) = .ok c)
    (hcall : syscallEntry L x.kernel (Regs.at c.mem (c.reg .rdi)) = .ok (none, s))
    (hcode : Shows A c.mem x.kernel → s.spinning = false → Leaves A c' s)
    (hleave : s.spinning = false → exec exceptionReturn c' = .ok c'') :
    Step L A x (some (.syscall (Regs.at c.mem (c.reg .rdi)))) ⟨c'', s⟩
  /-- `syscall` returns -/
  | call {entry : ℕ} {c c' c'' : Cpu} {k : ℤ} {s : State} (hspin : x.kernel.spinning = false)
    (hentry : exec (syscallEnter L) (syscallInstr entry x.cpu) = .ok c)
    (hcall : syscallEntry L x.kernel (Regs.at c.mem (c.reg .rdi)) = .ok (some k, s))
    (hcode : Shows A c.mem x.kernel → Returns A c c' k s)
    (hleave : exec (syscallLeave A) c' = .ok c'') :
    Step L A x (some (.syscall (Regs.at c.mem (c.reg .rdi)))) ⟨c'', s⟩

/-! ## The processors that the processes see -/

@[ext]
structure Virtual where
  live : Set ℕ
  reg : ℕ → Reg → ℕ

/-- The registers that a system call keeps. -/
def preserved : List Reg := calleeSaved ++ special

/-- The registers after a system call with the result `k`. -/
structure Answered (f g : Reg → ℕ) (k : ℤ) : Prop where
  result : g .rax = word k
  kept : ∀ r ∈ preserved, g r = f r

variable {L : Layout} {A : Labels} {v w : Virtual} {x y : Processor} {c : ℕ}

/-- The other processes keep their registers. -/
def Virtual.Others (v w : Virtual) (c : ℕ) : Prop := ∀ i ∈ v.live, i ≠ c → w.reg i = v.reg i

/-- A step is labelled with the process that is running, and the event, if there is one. -/
inductive Virtual.Step (v : Virtual) : ℕ × Option Event → Virtual → Prop
  | compute {w : Virtual} {c : ℕ} (hc : c ∈ v.live) (hlive : w.live = v.live)
    (hothers : v.Others w c) : Step v (c, none) w
  | store {w : Virtual} {c a i x : ℕ} (hc : c ∈ v.live) (hlive : w.live = v.live)
    (hothers : v.Others w c) : Step v (c, some (.store a i x)) w
  /-- the kernel runs, and no process notices -/
  | exception {w : Virtual} {c : ℕ} {regs : Regs} (hc : c ∈ v.live) (hregs : regs.reg = v.reg c)
    (hlive : w.live = v.live) (hreg : ∀ i ∈ v.live, w.reg i = v.reg i) :
    Step v (c, some (.exception regs)) w
  | call {w : Virtual} {c : ℕ} {regs : Regs} {k : ℤ} (hc : c ∈ v.live) (hreq : regs.rax = v.reg c .rax)
    (hlive : w.live = v.live) (hothers : v.Others w c) (hanswer : Answered (v.reg c) (w.reg c) k)
    (hgetpid : regs.rax = SYSCALL_GETPID → k = c) (hyield : regs.rax = SYSCALL_YIELD → k = 0)
    (hfork : regs.rax = SYSCALL_FORK → k = -1) (hexit : regs.rax ≠ SYSCALL_EXIT) :
    Step v (c, some (.syscall regs)) w
  | fork {w : Virtual} {c k : ℕ} {regs : Regs} (hc : c ∈ v.live) (hreq : regs.rax = v.reg c .rax)
    (hfork : regs.rax = SYSCALL_FORK) (hk : 0 < k) (hfree : k ∉ v.live)
    (hlive : w.live = insert k v.live) (hothers : v.Others w c)
    (hparent : Answered (v.reg c) (w.reg c) k) (hchild : Answered (v.reg c) (w.reg k) 0) :
    Step v (c, some (.syscall regs)) w
  | exit {w : Virtual} {c : ℕ} {regs : Regs} (hc : c ∈ v.live) (hreq : regs.rax = v.reg c .rax)
    (hexit : regs.rax = SYSCALL_EXIT) (hlive : w.live = v.live \ {c}) (hothers : v.Others w c) :
    Step v (c, some (.syscall regs)) w

/-- Only the running process can lose or change registers. -/
theorem Virtual.Step.others {ev : Option Event} (h : Virtual.Step v (c, ev) w) : v.Others w c := by
  cases h with
  | compute _ _ hothers | store _ _ hothers | call _ _ _ hothers | fork _ _ _ _ _ _ hothers
  | exit _ _ _ _ hothers => exact hothers
  | exception _ _ _ hreg => exact fun i hi _ => hreg i hi

/-- The processors that the processes see: the current process has the real one, the others have
    their registers in the process table. -/
def Processor.view (x : Processor) : Virtual where
  live := {i | x.kernel.Live i}
  reg := fun i => if i = x.kernel.current ∧ x.kernel.spinning = false then x.cpu.reg
    else (x.kernel.ptable i).regs.reg

/-- What the machine keeps. -/
structure Backed (A : Labels) (L : Layout) (x : Processor) : Prop where
  good : ∃ d, Good L d x.kernel
  user : ∀ i, x.kernel.Live i → UserMode (x.view.reg i)
  shows : x.kernel.spinning = false → Shows A x.cpu.mem x.kernel

theorem view_current (hspin : x.kernel.spinning = false) :
    x.view.reg x.kernel.current = x.cpu.reg := if_pos ⟨rfl, hspin⟩

theorem view_other {i : ℕ} (hi : i ≠ x.kernel.current) :
    x.view.reg i = (x.kernel.ptable i).regs.reg := if_neg fun h => hi h.1

/-! ## Memory -/

theorem ProcAt.congr {m m' : ℕ → ℕ} {p : ℕ} {q : Proc} (h : ProcAt m p q)
    (heq : ∀ a, p ≤ a → a < p + 208 → m' a = m a) : ProcAt m' p q := by
  have hregs : Regs.at m' (p + 16) = Regs.at m (p + 16) := by
    have hword : ∀ k < 24, m' (p + 16 + 8 * k) = m (p + 16 + 8 * k) := fun k hk =>
      heq _ (by omega) (by omega)
    simp (disch := decide) only [Regs.at, List.map_cons, List.map_nil, hword, -Nat.reduceMul]
  refine ⟨?_, fun hlive => ?_, fun hlive => ?_, fun hlive => hregs.trans (h.regs hlive)⟩
  · rw [heq _ (by omega) (by omega), h.state]
  · rw [heq _ (by omega) (by omega), h.pagetable hlive]
  · rw [heq _ (by omega) (by omega), h.pid hlive]

/-- An entry into the kernel leaves the process table as it is. -/
theorem Saved.shows {lost : List Reg} {c c₁ : Cpu} {s : State} (h : Saved L lost c c₁)
    (hs : Shows A c.mem s) : Shows A c₁.mem s := by
  have hstack : KERNEL_STACK_TOP - PAGESIZE ≤ REGSTATE := by decide
  have htable := A.ptable_below
  have hcur := A.current_below
  refine ⟨(h.memory _ (.inl (by omega))).trans hs.current, fun i hi => (hs.procs i hi).congr ?_⟩
  intro a hlo hhi
  rw [NPROC] at hi htable
  rw [Labels.proc] at hhi
  exact h.memory a (.inl (by omega))

/-! ## The way back -/

section
variable {s t : State} {d : ℕ → ℕ} {c' c'' : Cpu} {regs : Regs}

theorem reg_with_rax {k : ℕ} {r : Reg} (hr : r ≠ .rax) :
    ({ regs with rax := k } : Regs).reg r = regs.reg r := by
  cases r <;> first | rfl | exact absurd rfl hr

theorem UserMode.congr {f g : Reg → ℕ} (h : UserMode f) (heq : ∀ r ∈ [.cs, .ss, .fs, .gs], g r = f r) :
    UserMode g :=
  ⟨(heq .cs (by decide)).trans h.cs, (heq .ss (by decide)).trans h.ss,
    (heq .fs (by decide)).symm ▸ h.fs, (heq .gs (by decide)).symm ▸ h.gs⟩

/-- A process goes on with the registers that the process table has for it. -/
theorem Backed.resume (hgood : Good L d s) (huser : ∀ i, s.Live i → UserMode (s.ptable i).regs.reg)
    (hcode : s.spinning = false → Leaves A c' s)
    (hleave : s.spinning = false → exec exceptionReturn c' = .ok c'') :
    Backed A L ⟨c'', s⟩ ∧ ∀ i, s.Live i → (Processor.mk c'' s).view.reg i = (s.ptable i).regs.reg := by
  have hback : s.spinning = false → c''.mem = c'.mem ∧ c''.reg = (s.ptable s.current).regs.reg := by
    intro hspin
    obtain ⟨hrdi, hshows⟩ := hcode hspin
    have hlive := hgood.running hspin
    have hproc := hshows.procs _ hlive.1
    have hexec := hleave hspin
    have hstate : (s.ptable s.current).state = .runnable := by
      by_contra hstate
      rw [exceptionReturn_fails hproc (A.proc_aligned _) hrdi hstate] at hexec
      cases hexec
    obtain ⟨c₁, hok, -, hmem, hreg⟩ := exceptionReturn_spec hproc (A.proc_aligned _) hrdi hstate
    cases hexec.symm.trans hok
    exact ⟨hmem, funext fun r => (hreg r).trans ((huser _ hlive).fit r)⟩
  have hview : ∀ i, s.Live i → (Processor.mk c'' s).view.reg i = (s.ptable i).regs.reg := by
    intro i hi
    by_cases hcur : i = s.current ∧ s.spinning = false
    · rw [hcur.1]
      exact (view_current (x := ⟨c'', s⟩) hcur.2).trans (hback hcur.2).2
    · exact if_neg hcur
  refine ⟨⟨⟨d, hgood⟩, fun i hi => ?_, fun hspin => ?_⟩, hview⟩
  · rw [hview i hi]
    exact huser i hi
  · rw [(hback hspin).1]
    exact (hcode hspin).shows

end

/-! ## Steps -/

section
variable {s t : State} {d : ℕ → ℕ} {c₁ c' c'' : Cpu} {regs : Regs} {lost : List Reg} {ev : Event}
  (h : Backed A L x)
include h

/-- The processor executes the code of the current process. -/
theorem Backed.computed {f : Reg → ℕ} (hf : UserMode f) (hspin : x.kernel.spinning = false)
    (hgood : Good L d s) (hptable : s.ptable = x.kernel.ptable) (hcur : s.current = x.kernel.current)
    (hspin' : s.spinning = x.kernel.spinning) :
    Backed A L ⟨{ x.cpu with reg := f }, s⟩ ∧
      (Processor.view ⟨{ x.cpu with reg := f }, s⟩).live = x.view.live ∧
      x.view.Others (Processor.view ⟨{ x.cpu with reg := f }, s⟩) x.kernel.current := by
  have hlive : ∀ i, s.Live i ↔ x.kernel.Live i := fun i => by rw [State.Live, State.Live, hptable]
  have hself : (Processor.view ⟨{ x.cpu with reg := f }, s⟩).reg x.kernel.current = f :=
    if_pos ⟨hcur.symm, hspin'.trans hspin⟩
  have hother : ∀ i, i ≠ x.kernel.current →
      (Processor.view ⟨{ x.cpu with reg := f }, s⟩).reg i = x.view.reg i := by
    intro i hi
    rw [view_other hi, view_other (x := ⟨{ x.cpu with reg := f }, s⟩) (by rw [hcur]; exact hi), hptable]
  refine ⟨⟨⟨d, hgood⟩, fun i hi => ?_, fun _ => ?_⟩, Set.ext hlive, fun i _ hi => hother i hi⟩
  · by_cases hi' : i = x.kernel.current
    · rw [hi', hself]
      exact hf
    · rw [hother i hi']
      exact h.user i ((hlive i).1 hi)
  · obtain ⟨hcurrent, hprocs⟩ := h.shows hspin
    constructor
    · rw [hcur]
      exact hcurrent
    · rw [hptable]
      exact hprocs

omit h in
/-- The registers with which the kernel is entered are those of the current process. -/
theorem view_entered (hspin : x.kernel.spinning = false) (hsaved : Saved L lost x.cpu c₁) {r : Reg}
    (hr : r ∉ lost) :
    (Regs.at c₁.mem (c₁.reg .rdi)).reg r = x.view.reg x.kernel.current r := by
  rw [hsaved.reg_at hr, view_current hspin]

/-- The kernel calls `schedule`, and the process that has left may have other registers. -/
theorem Backed.switched (hleaving : Leaving L d x.kernel t)
    (hsched : schedule L t = .ok s) (hcode : s.spinning = false → Leaves A c' s)
    (hleave : s.spinning = false → exec exceptionReturn c' = .ok c'')
    (huser : t.Live x.kernel.current → UserMode (t.ptable x.kernel.current).regs.reg) :
    Backed A L ⟨c'', s⟩ ∧ (∀ i, s.Live i ↔ t.Live i) ∧
      x.view.Others (Processor.view ⟨c'', s⟩) x.kernel.current ∧
      (t.Live x.kernel.current → (Processor.view ⟨c'', s⟩).reg x.kernel.current =
        (t.ptable x.kernel.current).regs.reg) := by
  obtain ⟨s₁, hok, hptable, -⟩ := hleaving.inv.schedule_ok
  cases hsched.symm.trans hok
  have hlive : ∀ i, s.Live i ↔ t.Live i := fun i => by rw [State.Live, State.Live, hptable]
  have hregs : ∀ i, i ≠ x.kernel.current → (s.ptable i).regs.reg = x.view.reg i := fun i hi => by
    rw [hptable, hleaving.others i hi, view_other hi]
  have hother : ∀ i, i ≠ x.kernel.current → (s.Live i ↔ x.kernel.Live i) := fun i hi => by
    rw [hlive, State.Live, State.Live, hleaving.others i hi]
  obtain ⟨hback, hview⟩ := Backed.resume (hleaving.inv.schedule hsched) (fun i hi => by
    by_cases hi' : i = x.kernel.current
    · rw [hi'] at hi ⊢
      rw [hptable]
      exact huser ((hlive _).1 hi)
    · rw [hregs i hi']
      exact h.user i ((hother i hi').1 hi)) hcode hleave
  refine ⟨hback, hlive, fun i hi hi' => ?_, fun hi => ?_⟩
  · rw [hview i ((hother i hi').2 hi), hregs i hi']
  · rw [hview _ ((hlive _).2 hi), hptable]

theorem Backed.user_current (hspin : x.kernel.spinning = false) :
    UserMode (x.view.reg x.kernel.current) :=
  h.good.elim fun _ hg => h.user _ (hg.running hspin)

/-- **An exception**: no process notices. -/
theorem Backed.exception (hsaved : Saved L [] x.cpu c₁)
    (hstep : WeensyOS.step L x.kernel (.exception (Regs.at c₁.mem (c₁.reg .rdi))) = .ok s)
    (hcode : s.spinning = false → Leaves A c' s)
    (hleave : s.spinning = false → exec exceptionReturn c' = .ok c'') :
    Backed A L ⟨c'', s⟩ ∧ Virtual.Step x.view
      (x.kernel.current, some (.exception (Regs.at c₁.mem (c₁.reg .rdi)))) (Processor.view ⟨c'', s⟩) := by
  obtain ⟨hspin, ⟨-, t, hsw, hsched⟩ | ⟨hstays, -⟩⟩ := step_cases hstep
  · obtain ⟨d, hgood⟩ := h.good
    have hsame : (∀ i, t.Live i ↔ x.kernel.Live i) ∧
        (t.ptable x.kernel.current).regs = Regs.at c₁.mem (c₁.reg .rdi) := by
      cases hsw with
      | timer _ hshow =>
        have e := hgood.entered hspin hshow
        refine ⟨fun i => ?_, ?_⟩
        · rw [State.Live, State.Live, e.state]
        · rw [e.ptable, saveRegs, setProc_self]
      | @fault _ s₁ _ _ hshow =>
        have e := hgood.entered hspin hshow
        refine ⟨fun i => ?_, ?_⟩
        · by_cases hi : i = s₁.current
          · subst hi
            refine iff_of_true ⟨e.live.1, ?_⟩ ?_
            · rw [setProc_self]
              exact ProcState.noConfusion
            · rw [e.current]
              exact hgood.running hspin
          · rw [State.Live, setProc_of_ne hi, State.Live, e.state]
        · rw [← e.current, setProc_self, e.current, e.ptable, saveRegs, setProc_self]
    have hentered : (Regs.at c₁.mem (c₁.reg .rdi)).reg = x.view.reg x.kernel.current :=
      funext fun r => view_entered hspin hsaved List.not_mem_nil
    have hregs : (t.ptable x.kernel.current).regs.reg = x.view.reg x.kernel.current := by
      rw [hsame.2, hentered]
    obtain ⟨hback, hlive, hothers, hself⟩ := h.switched (hgood.leaving hspin hsw) hsched hcode
      hleave fun _ => by
        rw [hregs]
        exact h.user_current hspin
    refine ⟨hback, .exception (hgood.running hspin) hentered
      (Set.ext fun i => (hlive i).trans (hsame.1 i)) fun i hi => ?_⟩
    by_cases hi' : i = x.kernel.current
    · rw [hi', hself ((hsame.1 _).2 (hgood.running hspin)), hregs]
    · exact hothers i hi hi'
  · cases hstays

omit h in
/-- The registers that a system call keeps have been saved. -/
theorem view_preserved (hspin : x.kernel.spinning = false) (hsaved : Saved L [.rcx, .r11] x.cpu c₁)
    {k : ℕ} {r : Reg} (hr : r ∈ preserved) :
    ({ Regs.at c₁.mem (c₁.reg .rdi) with rax := k } : Regs).reg r = x.view.reg x.kernel.current r := by
  rw [reg_with_rax fun heq => absurd (heq ▸ hr) (by decide)]
  refine view_entered hspin hsaved ?_
  revert r
  decide

/-- **`sys_yield` and `sys_exit`.** -/
theorem Backed.switch (hspin : x.kernel.spinning = false) (hsaved : Saved L [.rcx, .r11] x.cpu c₁)
    (hcall : syscallEntry L x.kernel (Regs.at c₁.mem (c₁.reg .rdi)) = .ok (none, s))
    (hcode : s.spinning = false → Leaves A c' s)
    (hleave : s.spinning = false → exec exceptionReturn c' = .ok c'') :
    Backed A L ⟨c'', s⟩ ∧ Virtual.Step x.view
      (x.kernel.current, some (.syscall (Regs.at c₁.mem (c₁.reg .rdi)))) (Processor.view ⟨c'', s⟩) := by
  obtain ⟨s₁, hshow, hdisp⟩ := syscallEntry_ok hcall
  obtain ⟨d, hgood⟩ := h.good
  have hrunning := hgood.running hspin
  have e := hgood.entered hspin hshow
  have hrax : (Regs.at c₁.mem (c₁.reg .rdi)).rax = x.view.reg x.kernel.current .rax :=
    view_entered (r := .rax) hspin hsaved (by decide)
  have hans := dispatch_cases hdisp
  cases hans with
  | yield hreq hsched =>
    have hkept : ∀ r ∈ WeensyOS.preserved, ((saveRegs s₁ { (s₁.ptable s₁.current).regs with
        rax := 0 }).ptable x.kernel.current).regs.reg r = x.view.reg x.kernel.current r := by
      intro r hr
      rw [← e.current, saveRegs, setProc_self, e.current, e.ptable, saveRegs, setProc_self]
      exact view_preserved hspin hsaved hr
    have hlive : ∀ i, (saveRegs s₁ { (s₁.ptable s₁.current).regs with rax := 0 }).Live i ↔
        x.kernel.Live i := fun i => by
      rw [saveRegs_live, State.Live, e.state]
      rfl
    obtain ⟨hback, hlive', hothers, hself⟩ := h.switched
      (hgood.leaving hspin (.yield hreq hshow)) hsched hcode hleave fun _ =>
        (h.user_current hspin).congr fun r hr => hkept r (by revert r; decide)
    refine ⟨hback, .call hrunning (k := 0) hrax (Set.ext fun i => (hlive' i).trans (hlive i)) hothers
      ⟨?_, fun r hr => ?_⟩ (fun heq => ?_) (fun _ => rfl) (fun heq => ?_) fun heq => ?_⟩
    · rw [hself ((hlive _).2 hrunning), ← e.current, saveRegs, setProc_self]
      rfl
    · rw [hself ((hlive _).2 hrunning), hkept r hr]
    all_goals exact absurd (hreq.symm.trans heq) (by decide)
  | @exit t _ hreq hexit hsched =>
    have hsw := hgood.leaving hspin (.exit hreq hshow hexit)
    rw [e.inv.syscallExit e.live] at hexit
    cases hexit
    have hdead : ¬ (s₁.exited s₁.current).Live x.kernel.current := by
      rw [← e.current]
      refine fun hl => hl.2 ?_
      rw [State.exited, setProc_self]
    have hlive : ∀ i, i ≠ x.kernel.current → ((s₁.exited s₁.current).Live i ↔ x.kernel.Live i) :=
      fun i hi => by
        rw [State.Live, State.Live, hsw.others i hi]
    obtain ⟨hback, hlive', hothers, -⟩ := h.switched hsw hsched hcode hleave fun hl =>
      absurd hl hdead
    refine ⟨hback, .exit hrunning hrax hreq (Set.ext fun i => ?_) hothers⟩
    change s.Live i ↔ x.kernel.Live i ∧ i ≠ x.kernel.current
    rw [hlive']
    by_cases hi : i = x.kernel.current
    · rw [hi]
      exact iff_of_false hdead fun hl => hl.2 rfl
    · rw [hlive i hi]
      exact (and_iff_left hi).symm

/-- The process that has called goes on, and others may have come. -/
theorem Backed.returned (hspin : x.kernel.spinning = false) (hsaved : Saved L [.rcx, .r11] x.cpu c₁)
    {k : ℤ} (hreturn : Returns A c₁ c' k s) (hexec : exec (syscallLeave A) c' = .ok c'')
    (hgood : Good L d s) (hcur : s.current = x.kernel.current) (hspin' : s.spinning = false)
    (hothers : ∀ i, x.kernel.Live i → i ≠ x.kernel.current → s.ptable i = x.kernel.ptable i)
    (hnew : ∀ i, s.Live i → ¬ x.kernel.Live i → UserMode (s.ptable i).regs.reg) :
    Backed A L ⟨c'', s⟩ ∧ x.view.Others (Processor.view ⟨c'', s⟩) x.kernel.current ∧
      Answered (x.view.reg x.kernel.current) ((Processor.view ⟨c'', s⟩).reg x.kernel.current) k := by
  have hproc := hreturn.shows.procs _ (hgood.running hspin').1
  have hstack : c'.reg .rsp = REGSTATE := hreturn.stack.trans hsaved.stack
  have hstate : (s.ptable s.current).state = .runnable := by
    by_contra hstate
    rw [syscallLeave_fails hproc (A.proc_aligned _) hreturn.shows.current hstate] at hexec
    cases hexec
  obtain ⟨c₂, hok, -, hmem, hspecial, hrest⟩ := syscallLeave_spec hproc (A.proc_aligned _)
    hreturn.shows.current hstack hstate
  cases hexec.symm.trans hok
  have huser := h.user_current hspin
  rw [view_current hspin] at huser
  have hself : (Processor.view ⟨c'', s⟩).reg x.kernel.current = c''.reg := if_pos ⟨hcur.symm, hspin'⟩
  have hother : ∀ i, i ≠ x.kernel.current →
      (Processor.view ⟨c'', s⟩).reg i = (s.ptable i).regs.reg := fun i hi =>
    view_other (x := ⟨c'', s⟩) (by rw [hcur]; exact hi)
  have hanswer : Answered x.cpu.reg c''.reg k := by
    refine ⟨?_, fun r hr => ?_⟩
    · rw [hrest _ (by decide) (by decide), hreturn.result]
    · rcases List.mem_append.1 hr with hr | hr
      · rw [hrest r (by revert r; decide) (by revert r; decide), hreturn.saved r hr]
        exact hsaved.registers r (by revert r; decide) (by revert r; decide)
      · have hlost : r ∉ [.rcx, .r11] := by revert r; decide
        have hidx : ∀ r : Reg, r.index < 24 := by
          intro r
          cases r <;> decide
        have harg := hreturn.argument _ (hidx r)
        rw [hsaved.argument] at harg
        rw [hspecial r hr, harg, hsaved.words r hlost, huser.fit]
  refine ⟨⟨⟨d, hgood⟩, fun i hi => ?_, fun _ => ?_⟩, fun i hi hi' => ?_, ?_⟩
  · by_cases hi' : i = x.kernel.current
    · rw [hi', hself]
      exact huser.congr fun r hr => hanswer.kept r (by revert r; decide)
    · rw [hother i hi']
      by_cases hlive : x.kernel.Live i
      · rw [hothers i hlive hi', ← view_other hi']
        exact h.user i hlive
      · exact hnew i hi hlive
  · rw [hmem]
    exact hreturn.shows
  · rw [hother i hi', hothers i hi hi', view_other hi']
  · rw [hself, view_current hspin]
    exact hanswer

/-- **`sys_getpid`, `sys_page_alloc` and `sys_fork`.** -/
theorem Backed.call (hspin : x.kernel.spinning = false) (hsaved : Saved L [.rcx, .r11] x.cpu c₁)
    {k : ℤ} (hcall : syscallEntry L x.kernel (Regs.at c₁.mem (c₁.reg .rdi)) = .ok (some k, s))
    (hsafe : SafeFork x.kernel (.syscall (Regs.at c₁.mem (c₁.reg .rdi))))
    (hreturn : Returns A c₁ c' k s) (hexec : exec (syscallLeave A) c' = .ok c'') :
    Backed A L ⟨c'', s⟩ ∧ Virtual.Step x.view
      (x.kernel.current, some (.syscall (Regs.at c₁.mem (c₁.reg .rdi)))) (Processor.view ⟨c'', s⟩) := by
  obtain ⟨s₁, hshow, hdisp⟩ := syscallEntry_ok hcall
  obtain ⟨d, hgood⟩ := h.good
  have hrunning := hgood.running hspin
  have e := hgood.entered hspin hshow
  have hrax : (Regs.at c₁.mem (c₁.reg .rdi)).rax = x.view.reg x.kernel.current .rax :=
    view_entered (r := .rax) hspin hsaved (by decide)
  have hstep : WeensyOS.step L x.kernel (.syscall (Regs.at c₁.mem (c₁.reg .rdi))) = .ok s := by
    rw [WeensyOS.step, if_neg (by rw [hspin]; decide)]
    simp only
    rw [hcall]
    rfl
  obtain ⟨d', hgood', -⟩ := hgood.step hsafe hstep
  have hlive₁ : ∀ i, s₁.Live i ↔ x.kernel.Live i := fun i => by rw [State.Live, State.Live, e.state]
  have hans := dispatch_cases hdisp
  generalize hr : some k = r at hans
  -- a call that leaves the process table as it is
  have hsame : s.ptable = s₁.ptable → s.current = s₁.current → s.spinning = s₁.spinning →
      ((Regs.at c₁.mem (c₁.reg .rdi)).rax = SYSCALL_GETPID ∧ k = x.kernel.current ∨
        (Regs.at c₁.mem (c₁.reg .rdi)).rax = SYSCALL_PAGE_ALLOC) →
      Backed A L ⟨c'', s⟩ ∧ Virtual.Step x.view
        (x.kernel.current, some (.syscall (Regs.at c₁.mem (c₁.reg .rdi)))) (Processor.view ⟨c'', s⟩) := by
    intro hptable hcur hsp hreq
    have hlive : ∀ i, s.Live i ↔ x.kernel.Live i := fun i => by
      rw [State.Live, hptable]
      exact hlive₁ i
    obtain ⟨hback, hothers, hanswer⟩ := h.returned hspin hsaved hreturn hexec hgood'
      (hcur.trans e.current) (hsp.trans (e.spinning.trans hspin)) (fun i _ hi => by
        rw [hptable, e.ptable_of_ne hi]) fun i hi hdead => absurd ((hlive i).1 hi) hdead
    rcases hreq with ⟨hreq, hpid⟩ | hreq
    · refine ⟨hback, .call hrunning hrax (Set.ext hlive) hothers hanswer (fun _ => hpid)
        (fun heq => ?_) (fun heq => ?_) fun heq => ?_⟩ <;>
        exact absurd (hreq.symm.trans heq) (by decide)
    · refine ⟨hback, .call hrunning hrax (Set.ext hlive) hothers hanswer (fun heq => ?_)
        (fun heq => ?_) (fun heq => ?_) fun heq => ?_⟩ <;>
        exact absurd (hreq.symm.trans heq) (by decide)
  cases hans with
  | getpid hreq =>
    cases hr
    refine hsame rfl rfl rfl (.inl ⟨hreq, ?_⟩)
    rw [e.pid]
  | yield _ _ => cases hr
  | exit _ _ _ => cases hr
  | pageAlloc hreq hpage =>
    obtain ⟨-, hrest, -⟩ := e.inv.pageAlloc e.live hpage
    rw [hrest] at hsame ⊢
    exact hsame rfl rfl rfl (.inr hreq)
  | @fork k' _ hreq hfork =>
    cases hr
    have hsafe₁ : ForkSafe s₁ := by
      obtain ⟨-, hq⟩ := (hgood.inv.saveRegs _).memshow hshow
      exact (hgood.inv.saveRegs _).forkSafe_quiet (saveRegs_live.2 hrunning) hq
        (forkSafe_saveRegs (hsafe hreq))
    obtain ⟨-, hcur, hsp, hptable, -⟩ := e.inv.fork e.live hsafe₁ hfork
    obtain ⟨k₁, s₂, hfork', -, hres⟩ := e.inv.fork_ok e.live hsafe₁
    cases hfork.symm.trans hfork'
    have hold : ∀ i, x.kernel.Live i → i ≠ x.kernel.current → s.ptable i = x.kernel.ptable i :=
      fun i hi hi' => by rw [hptable i ((hlive₁ i).2 hi), e.ptable_of_ne hi']
    have hspin' : s.spinning = false := hsp.trans (e.spinning.trans hspin)
    have hcur' : s.current = x.kernel.current := hcur.trans e.current
    rcases hres with ⟨rfl, hstates⟩ | ⟨slot, rfl, hdup⟩
    · have hlive : ∀ i, s.Live i ↔ x.kernel.Live i := fun i => by
        rw [State.Live, hstates i]
        exact hlive₁ i
      obtain ⟨hback, hothers, hanswer⟩ := h.returned hspin hsaved hreturn hexec hgood' hcur' hspin' hold
        fun i hi hdead => absurd ((hlive i).1 hi) hdead
      refine ⟨hback, .call hrunning hrax (Set.ext hlive) hothers hanswer (fun heq => ?_)
        (fun heq => ?_) (fun _ => rfl) fun heq => ?_⟩ <;>
        exact absurd (hreq.symm.trans heq) (by decide)
    · obtain ⟨hpos, hlt, hfree, -⟩ := hdup.slot
      have hdead : ¬ x.kernel.Live slot := fun hl => hl.2 ((e.state slot).symm.trans hfree)
      have hchild : ∀ r ∈ WeensyOS.preserved,
          (s.ptable slot).regs.reg r = x.view.reg x.kernel.current r := by
        intro r hr
        rw [hdup.regs, e.current, e.ptable, saveRegs, setProc_self]
        exact view_preserved hspin hsaved hr
      have hlive : ∀ i, s.Live i ↔ i = slot ∨ x.kernel.Live i := by
        intro i
        by_cases hi : i = slot
        · refine iff_of_true ⟨by rw [hi]; exact hlt, ?_⟩ (.inl hi)
          rw [hi, hdup.state]
          exact e.live.2
        · rw [State.Live, hdup.procs i hi, or_iff_right hi]
          exact hlive₁ i
      obtain ⟨hback, hothers, hanswer⟩ := h.returned hspin hsaved hreturn hexec hgood' hcur' hspin' hold
        fun i hi hnew => by
          rw [((hlive i).1 hi).resolve_right hnew]
          exact (h.user_current hspin).congr fun r hr => hchild r (by revert r; decide)
      have hne : slot ≠ s.current := fun heq => hdead (by rw [heq, hcur']; exact hrunning)
      refine ⟨hback, .fork hrunning hrax hreq hpos hdead (Set.ext hlive) hothers hanswer ?_⟩
      rw [view_other (x := ⟨c'', s⟩) hne]
      refine ⟨?_, hchild⟩
      rw [hdup.regs]
      rfl

/-- **One step** of the machine. -/
theorem Backed.step {ev : Option Event} (hsafe : ∀ e ∈ ev, SafeFork x.kernel e)
    (hstep : Processor.Step L A x ev y) :
    Backed A L y ∧ Virtual.Step x.view (x.kernel.current, ev) y.view := by
  obtain ⟨d, hgood⟩ := h.good
  cases hstep with
  | compute hspin hf =>
    obtain ⟨hback, hlive, hothers⟩ := h.computed hf hspin hgood rfl rfl rfl
    exact ⟨hback, .compute (hgood.running hspin) hlive hothers⟩
  | @store f v i w s hf hstep =>
    have hspin := step_spinning hstep
    have hsafe' : SafeFork x.kernel (.store v i w) := trivial
    obtain ⟨d', hgood', -⟩ := hgood.step hsafe' hstep
    obtain ⟨-, hstays⟩ | ⟨-, hstays⟩ := (step_cases hstep).2
    · cases hstays.choose_spec.1
    · cases hstays
      obtain ⟨-, hq⟩ := hgood.inv.store (hgood.running hspin) v i w
      obtain ⟨hback, hlive, hothers⟩ := h.computed hf hspin hgood' hq.ptable hq.current hq.spinning
      exact ⟨hback, .store (hgood.running hspin) hlive hothers⟩
  | exception hentry hstep hcode hleave =>
    obtain ⟨c₁, hok, hsaved, -⟩ := exceptionEntry_spec (L := L)
    cases hentry.symm.trans hok
    exact h.exception hsaved hstep (hcode (hsaved.shows (h.shows (step_spinning hstep)))) hleave
  | switch hspin hentry hcall hcode hleave =>
    have huser := h.user_current hspin
    rw [view_current hspin] at huser
    obtain ⟨c₁, hok, hsaved⟩ := syscallEnter_spec (L := L) huser
    cases hentry.symm.trans hok
    exact h.switch hspin hsaved hcall (hcode (hsaved.shows (h.shows hspin))) hleave
  | call hspin hentry hcall hcode hleave =>
    have huser := h.user_current hspin
    rw [view_current hspin] at huser
    obtain ⟨c₁, hok, hsaved⟩ := syscallEnter_spec (L := L) huser
    cases hentry.symm.trans hok
    exact h.call hspin hsaved hcall (hsafe _ rfl) (hcode (hsaved.shows (h.shows hspin))) hleave

end

/-! ## Runs -/

/-- A step in which no fork overflows a count, labelled with the process that is running. -/
def Processor.Goes (L : Layout) (A : Labels) (x : Processor) (i : ℕ × Option Event) (y : Processor) :
    Prop :=
  i.1 = x.kernel.current ∧ (∀ e ∈ i.2, SafeFork x.kernel e) ∧ Processor.Step L A x i.2 y

theorem Backed.run {is : List (ℕ × Option Event)} (h : Backed A L x)
    (hrun : Path (Processor.Goes L A) x is y) :
    Backed A L y ∧ Path Virtual.Step x.view is y.view := by
  refine hrun.sim (Backed A L) (fun x i y h hstep => ?_) h
  obtain ⟨c, ev⟩ := i
  obtain ⟨hc, hsafe, hstep⟩ := hstep
  cases hc
  exact h.step hsafe hstep

/-- The process in the slot `i` has not run yet. -/
def Unstarted (s : State) (i : ℕ) : Prop :=
  ∃ entry, (s.ptable i).regs = { initRegs with rip := entry, rsp := MEMSIZE_VIRTUAL }

theorem Unstarted.userMode {s : State} {i : ℕ} (h : Unstarted s i) : UserMode (s.ptable i).regs.reg := by
  obtain ⟨entry, hregs⟩ := h
  rw [hregs]
  exact ⟨rfl, rfl, show initRegs.reg .fs < 2 ^ 16 by decide, show initRegs.reg .gs < 2 ^ 16 by decide⟩

section
variable {s s' : State} {prog : ℕ × Option Elf}

theorem Booting.setupOne_unstarted (h : Booting L s) (hloads : LoadsOne L s prog)
    (hres : WeensyOS.setupOne L s prog = .ok s') : Unstarted s' prog.1 := by
  obtain ⟨elf, helf, hl⟩ := hloads
  have hloadable : Loadable L s elf := ⟨h.inv.kernel, hl.magic, hl.placed, hl.enough⟩
  obtain ⟨r, f, t, ht, hset⟩ := hloadable.setUp hl.contiguous prog.1
  rw [WeensyOS.setupOne, helf] at hres
  cases ht.symm.trans hres
  exact ⟨elf.entry, by rw [hset.proc]⟩

theorem Booting.setups_unstarted (ps : List (ℕ × Option Elf)) : ∀ {s}, Booting L s →
    (∀ x ∈ ps, Slot s x.1) → (ps.map Prod.fst).Nodup → Meets (WeensyOS.setupOne L) (LoadsOne L) s ps →
    (∀ i, s.Live i → Unstarted s i) → CProj.run (WeensyOS.setupOne L) s ps = .ok s' →
    ∀ i, s'.Live i → Unstarted s' i := by
  induction ps with
  | nil =>
    intro s _ _ _ _ hfresh hres
    cases hres
    exact hfresh
  | cons x ps ih =>
    intro s h hslots hnodup hloads hfresh hres
    rw [List.map_cons, List.nodup_cons] at hnodup
    obtain ⟨t, ht, hboot, -, hothers⟩ := h.setupOne (hslots x List.mem_cons_self) hloads.1
    have hne : ∀ y ∈ ps, y.1 ≠ x.1 := fun y hy heq => hnodup.1 (List.mem_map.2 ⟨y, hy, heq⟩)
    obtain ⟨u, hu, hrest⟩ := run_cons.1 hres
    cases ht.symm.trans hu
    refine ih hboot (fun y hy => ?_) hnodup.2 (hloads.2 t ht) (fun i hi => ?_) hrest
    · obtain ⟨h1, h2, h3, h4⟩ := hslots y (List.mem_cons_of_mem _ hy)
      exact ⟨h1, h2, by rw [hothers _ (hne y hy), h3], by rw [hothers _ (hne y hy), h4]⟩
    · by_cases hix : i = x.1
      · rw [hix]
        exact h.setupOne_unstarted hloads.1 ht
      · rw [Unstarted, hothers i hix]
        exact hfresh i (by rw [State.Live, ← hothers i hix]; exact hi)

end

/-- The word at the position `k` of `struct regstate`. -/
def regWord (regs : Regs) (k : ℕ) : ℕ :=
  (general.map regs.reg ++ [regs.intno + 2 ^ 32 * regs.others.getD 15 0, regs.errcode] ++
    special.map regs.reg).getD k 0

/-- A memory that shows the process table. -/
def ptableMem (A : Labels) (s : State) (a : ℕ) : ℕ :=
  if a = A.current then A.proc s.current
  else
    let q := s.ptable ((a - A.ptable) / 208)
    match (a - A.ptable) % 208 / 8 with
    | 0 => q.pagetable
    | 1 => q.pid % 2 ^ 32 + 2 ^ 32 * stateCode q.state
    | k + 2 => regWord q.regs k

theorem ptableMem_shows {s : State} (hcur : A.current < A.ptable)
    (hpid : ∀ i, s.Live i → (s.ptable i).pid = i) (hfresh : ∀ i, s.Live i → Unstarted s i) :
    Shows A (ptableMem A s) s := by
  refine ⟨if_pos rfl, fun i hi => ?_⟩
  have hat : ∀ k < 26, ptableMem A s (A.proc i + 8 * k) = match k with
      | 0 => (s.ptable i).pagetable
      | 1 => (s.ptable i).pid % 2 ^ 32 + 2 ^ 32 * stateCode (s.ptable i).state
      | k + 2 => regWord (s.ptable i).regs k := by
    intro k hk
    have hdiv : (A.proc i + 8 * k - A.ptable) / 208 = i := by
      rw [Labels.proc]
      omega
    have hmod : (A.proc i + 8 * k - A.ptable) % 208 / 8 = k := by
      rw [Labels.proc]
      omega
    rw [ptableMem, if_neg (by rw [Labels.proc]; omega)]
    simp only [hdiv, hmod]
  have hcode : stateCode (s.ptable i).state < 4 := by
    cases (s.ptable i).state <;> decide
  have h0 := hat 0 (by decide)
  have h1 := hat 1 (by decide)
  simp only at h0 h1
  refine ⟨?_, fun _ => h0, fun hlive => ?_, fun hlive => ?_⟩
  · rw [h1]
    omega
  · rw [NPROC] at hi
    rw [h1, hpid i ⟨hi, hlive⟩]
    omega
  · obtain ⟨entry, hregs⟩ := hfresh i ⟨hi, hlive⟩
    have hword : ∀ k < 24, ptableMem A s (A.proc i + 16 + 8 * k) = regWord (s.ptable i).regs k := by
      intro k hk
      have := hat (k + 2) (by omega)
      rwa [show A.proc i + 8 * (k + 2) = A.proc i + 16 + 8 * k by omega] at this
    rw [hregs] at hword ⊢
    simp (disch := decide) only [Regs.at, List.map_cons, List.map_nil, hword, -Nat.reduceMul]
    simp [regWord, general, special, Regs.reg, initRegs]

/-- Labels in the image of `smallKernel`. -/
def smallLabels : Labels := ⟨0x51000, 0x50FF8, by decide, by decide, by decide⟩

section
variable {ramimages : String → Option Elf} {command : Option String} {s s₀ : State}
  {ps : List (ℕ × Option Elf)}

/-- The processes that `kernel` sets up. -/
theorem kernel_unstarted (hcleared : Cleared s) (hps : bootPrograms ramimages command = .ok ps)
    (hloads : ∀ s₁, kernelMemory L s = .ok s₁ → Meets (setupOne L) (LoadsOne L) (initPtable s₁) ps)
    (hkernel : kernel L ramimages command s = .ok s₀) : Boot L s₀ ∧ ∀ i, s₀.Live i → Unstarted s₀ i := by
  have hmem := kernelMemory_eq L s
  obtain ⟨hboot, hslots⟩ := hcleared.booting hmem
  obtain ⟨hnodup, -, hrange⟩ := bootPrograms_pids hps
  obtain ⟨s₂, hkernel', hboot'⟩ := kernel_boot ramimages command hcleared hps hloads
  cases hkernel.symm.trans hkernel'
  rw [kernel_eq, hmem, ok_bind, hps, ok_bind] at hkernel
  obtain ⟨s₁, hrun₁, hproc⟩ := bind_eq_ok.1 hkernel
  obtain ⟨rfl, -⟩ := runProc_ok hproc
  refine ⟨hboot', show ∀ i, s₁.Live i → Unstarted s₁ i from hboot.setups_unstarted ps
    (fun x hx => ?_) hnodup (hloads _ hmem) (fun i hi => ?_) hrun₁⟩
  · obtain ⟨h1, h2⟩ := hrange x.1 (List.mem_map_of_mem hx)
    exact hslots x.1 h1 h2
  · -- at first there is no process
    by_cases h0 : i = 0
    · rw [h0] at hi
      exact absurd hboot.inv.slot0 hi.2
    · exact absurd (hslots i (Nat.pos_of_ne_zero h0) hi.1).free hi.2

/-- **Every process has a processor of its own.**  From the first process on, whatever the programs do
    and whenever exceptions come, a step of the machine is a step of the virtual processors. -/
theorem run_virtualizes {c₀ c : Cpu} {is : List (ℕ × Option Event)} (hcleared : Cleared s)
    (hps : bootPrograms ramimages command = .ok ps)
    (hloads : ∀ s₁, kernelMemory L s = .ok s₁ → Meets (setupOne L) (LoadsOne L) (initPtable s₁) ps)
    (hkernel : kernel L ramimages command s = .ok s₀) (hcode : Leaves A c₀ s₀)
    (hleave : exec exceptionReturn c₀ = .ok c)
    (hrun : Path (Processor.Goes L A) ⟨c, s₀⟩ is x) :
    (∀ i, s₀.Live i → Unstarted s₀ i ∧ (Processor.mk c s₀).view.reg i = (s₀.ptable i).regs.reg) ∧
      Path Virtual.Step (Processor.mk c s₀).view is x.view ∧ Backed A L x := by
  obtain ⟨hboot, hfresh⟩ := kernel_unstarted hcleared hps hloads hkernel
  obtain ⟨hback, hview⟩ : Backed A L ⟨c, s₀⟩ ∧
      ∀ i, s₀.Live i → (Processor.mk c s₀).view.reg i = (s₀.ptable i).regs.reg :=
    Backed.resume hboot.good (fun i hi => (hfresh i hi).userMode) (fun _ => hcode) fun _ => hleave
  obtain ⟨hback', hsteps⟩ := hback.run hrun
  exact ⟨fun i hi => ⟨hfresh i hi, hview i hi⟩, hsteps, hback'⟩

end

theorem run_virtualizes_small : ∃ s₀ c, kernel smallKernel twoPageImages (some "allocator") resetState =
    .ok s₀ ∧ (∀ i, s₀.Live i → (Processor.mk c s₀).view.reg i = (s₀.ptable i).regs.reg) ∧
      Path Virtual.Step (Processor.mk c s₀).view
        [(s₀.current, none), (s₀.current, some (.store 0 0 1))]
        (Processor.mk { c with reg := initRegs.reg } (userStore s₀ 0 0 1)).view := by
  obtain ⟨s₀, hkernel, hstart⟩ := (resetState_boots "allocator").started
  obtain ⟨-, hfresh⟩ := kernel_unstarted resetState_cleared rfl (fun _ => twoPageImages_loads) hkernel
  have hshows := ptableMem_shows (A := smallLabels) (by decide) hstart.boot.pid hfresh
  have hspin := hstart.boot.spinning
  have hlive := hstart.boot.good.running hspin
  have hcode : Leaves smallLabels ⟨⟨fun _ => smallLabels.proc s₀.current, ptableMem smallLabels s₀⟩, 0⟩ s₀ :=
    ⟨rfl, hshows⟩
  obtain ⟨c, hleave, -⟩ := exceptionReturn_spec (hshows.procs _ hlive.1)
    (smallLabels.proc_aligned _) hcode.argument (hstart.runnable _ hlive)
  have huser : UserMode initRegs.reg := ⟨rfl, rfl, by decide, by decide⟩
  have hcompute : Processor.Goes smallKernel smallLabels ⟨c, s₀⟩ (s₀.current, none)
      ⟨{ c with reg := initRegs.reg }, s₀⟩ :=
    ⟨rfl, fun _ he => absurd he (Option.not_mem_none _), .compute hspin huser⟩
  have hstep : step smallKernel s₀ (.store 0 0 1) = .ok (userStore s₀ 0 0 1) := by
    rw [step, if_neg (by rw [hspin]; decide)]
  have hstore : Processor.Goes smallKernel smallLabels ⟨{ c with reg := initRegs.reg }, s₀⟩
      (s₀.current, some (.store 0 0 1)) ⟨{ c with reg := initRegs.reg }, userStore s₀ 0 0 1⟩ := by
    refine ⟨rfl, fun e he => ?_, .store huser hstep⟩
    cases he
    trivial
  obtain ⟨hview, hsteps, -⟩ := run_virtualizes resetState_cleared rfl (fun _ => twoPageImages_loads)
    hkernel hcode hleave (.cons hcompute (.cons hstore .nil))
  exact ⟨s₀, c, hkernel, fun i hi => (hview i hi).2, hsteps⟩

end CProj.WeensyOS
