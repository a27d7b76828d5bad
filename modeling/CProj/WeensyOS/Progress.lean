/-
  When system calls succeed.

  The checks of the scheduler never fail, and a call fails for want of memory only if there are few
  free pages.  `Active` describes a state by the slots whose processes can run; each system call
  of such a process ends in a state that is described in the same way.
-/
import Mathlib.Data.Finset.Card
import Mathlib.Data.List.Find
import CProj.WeensyOS.Steps

namespace CProj.WeensyOS

variable {L : Layout} {d : ℕ → ℕ} {s s' : State} {i j p : ℕ} {l : List ℕ}

/-! ## Free pages -/

section
variable {pages : ℕ → UInt8} {n : ℕ}

/-- The pages that `kalloc` can hand out. -/
def freePages (L : Layout) (pages : ℕ → UInt8) : Finset ℕ :=
  (Finset.range NPAGES).filter fun p =>
    allocatablePhysicalAddress L (p * PAGESIZE) = true ∧ pages p = 0

theorem mem_freePages : p ∈ freePages L pages ↔ Alloc L p ∧ pages p = 0 := by
  rw [freePages, Finset.mem_filter, Finset.mem_range]
  exact ⟨fun h => h.2, fun h => ⟨h.1.lt, h⟩⟩

theorem exists_firstFree (hp : p ∈ freePages L pages) : ∃ n, firstFree L pages = some n := by
  obtain ⟨halloc, h0⟩ := mem_freePages.1 hp
  cases hn : firstFree L pages with
  | none => exact absurd h0 (firstFree_none hn halloc)
  | some n => exact ⟨n, rfl⟩

/-- `kalloc` hands out the lowest free page. -/
theorem firstFree_le (hn : firstFree L pages = some n) (hp : p ∈ freePages L pages) : n ≤ p := by
  obtain ⟨halloc, h0⟩ := mem_freePages.1 hp
  obtain ⟨-, -, hmin⟩ := List.find?_range_eq_some.1 hn
  by_contra hlt
  have := hmin p (not_le.1 hlt)
  rw [h0, show allocatablePhysicalAddress L (p * PAGESIZE) = true from halloc] at this
  cases this

end

/-! ## The checks of the scheduler -/

/-- An iterator over a table that maps the page of an address to itself. -/
theorem create_identity {m : Mem} {r q : ℕ} (va : ℕ) (hs : Shaped m r) (hva : va < 0x200000)
    (htr : translate m r (va / 4096) = some (va / 4096, q)) :
    ∃ it, Vmiter.create m (r * 4096) va = .ok it ∧ it.pa m = va := by
  refine ⟨_, create_eq hs (canonical_of_lt (by omega)) (by omega), ?_⟩
  rw [vmiterAt_pa htr]
  omega

theorem Inv.checkPagetable (h : Inv L d s) (hi : s.Live i) :
    checkPagetable L s (s.ptable i).pagetable = .ok () := by
  have hok := h.procs i hi
  have hend := L.end_le
  obtain ⟨hin, hin'⟩ := L.pagetable_in
  have hentry := L.entry_in.2
  have haligned := L.pagetable_aligned
  simp only [KERNEL_STACK_TOP, PAGESIZE, KERNEL_START_ADDR] at hend hin hin' haligned
  have hroot := (hok.alloc _ (mem_owned.2 (Or.inr List.mem_cons_self))).lt
  change s.root i < 512 at hroot
  have hkernel : kernelRoot L * 4096 = L.kernelPagetable := by
    rw [kernelRoot, PAGESIZE]
    omega
  obtain ⟨q₁, htr₁, -⟩ := hok.half (L.exceptionEntry / 4096) (by omega)
  obtain ⟨q₂, htr₂, -⟩ := h.kernel.map (s.root i) hroot
  obtain ⟨q₃, htr₃, -⟩ := hok.half (L.kernelPagetable / 4096) (by omega)
  have hdiv : s.root i * 4096 / 4096 = s.root i := Nat.mul_div_cancel _ (by decide)
  obtain ⟨it₁, hit₁, hpa₁⟩ := create_identity _ hok.shaped (by omega) htr₁
  obtain ⟨it₂, hit₂, hpa₂⟩ := create_identity (s.root i * 4096) h.kernel.shaped (by omega)
    (by rw [hdiv]; exact htr₂)
  obtain ⟨it₃, hit₃, hpa₃⟩ := create_identity _ hok.shaped (by omega) htr₃
  rw [hkernel] at hit₂
  rw [h.treeShaped.pagetable hi, WeensyOS.checkPagetable, assert_ok (WeensyOS.aligned _), ok_bind,
    hit₁, ok_bind,
    assert_ok hpa₁, ok_bind, hit₂, ok_bind, assert_ok hpa₂, ok_bind, hit₃, ok_bind, assert_ok hpa₃]

/-! ## Slots -/

/-- The processes in the slots `l` can run, and the other slots are free. -/
structure Active (L : Layout) (d : ℕ → ℕ) (l : List ℕ) (s : State) : Prop where
  inv : Inv L d s
  live : ∀ i, s.Live i ↔ i ∈ l
  runnable : ∀ i ∈ l, (s.ptable i).state = .runnable
  spinning : s.spinning = false

/-- The process in the slot `i` has the same table in both states. -/
structure Keeps (i : ℕ) (s s' : State) : Prop where
  root : s'.root i = s.root i
  agree : Agree s.mem s'.mem (tables s.mem 3 (s.root i))

theorem Keeps.trans {s₁ : State} (h : Keeps i s s₁) (h' : Keeps i s₁ s') : Keeps i s s' := by
  refine ⟨h'.root.trans h.root, fun p hp k => ?_⟩
  rw [h'.agree p (by rw [h.root, h.agree.tables]; exact hp), h.agree p hp]

theorem Keeps.translate (h : Keeps i s s') (v : ℕ) :
    translate s'.mem (s'.root i) v = WeensyOS.translate s.mem (s.root i) v := by
  rw [h.root, h.agree.translate]

theorem Keeps.owned (h : Keeps i s s') :
    owned s'.mem (s'.root i) = WeensyOS.owned s.mem (s.root i) := by
  rw [h.root, h.agree.owned]

theorem Keeps.shares (h : Keeps i s s') (v : ℕ) :
    shares s'.mem (s'.root i) v = WeensyOS.shares s.mem (s.root i) v := by
  refine List.flatMap_congr fun w _ => ?_
  rw [shared, shared, h.translate]

theorem Keeps.copied (h : Keeps i s s') :
    copied s'.mem (s'.root i) = WeensyOS.copied s.mem (s.root i) := by
  funext w
  rw [WeensyOS.copied, WeensyOS.copied, h.translate]

section
variable (h : Active L d l s)
include h

theorem Active.state_iff (hi : i < NPROC) : (s.ptable i).state = .runnable ↔ i ∈ l := by
  refine ⟨fun hr => (h.live i).1 ⟨hi, ?_⟩, h.runnable i⟩
  rw [hr]
  decide

theorem Active.free_iff (hi : i < NPROC) : (s.ptable i).state = .free ↔ i ∉ l := by
  rw [← not_iff_not, not_not, ← h.live]
  exact ⟨fun hne => ⟨hi, hne⟩, fun hl => hl.2⟩

theorem Active.nextRunnable {c : ℕ} (hc : (s.ptable s.current).pid = c) :
    nextRunnable s = ((List.range NPROC).map fun k => (c + 1 + k) % NPROC).find? fun i =>
      i ∈ l := by
  rw [WeensyOS.nextRunnable, hc]
  refine List.find?_congr fun i hi => decide_eq_decide.2 (h.state_iff ?_)
  obtain ⟨k, -, rfl⟩ := List.mem_map.1 hi
  exact Nat.mod_lt _ (by decide)

theorem Active.freeSlot : freeSlot s = (List.range' 1 (NPROC - 1)).find? fun i => i ∉ l := by
  refine List.find?_congr fun i hi => decide_eq_decide.2 (h.free_iff ?_)
  have := (List.mem_range'_1.1 hi).2
  simp only [NPROC] at this ⊢
  omega

/-- **`schedule`** runs the next process. -/
theorem Active.schedule {c : ℕ} (hc : (s.ptable s.current).pid = c)
    (hnext : (((List.range NPROC).map fun k => (c + 1 + k) % NPROC).find? fun i => i ∈ l) = some j) :
    schedule L s = .ok { s with current := j } ∧ Active L d l { s with current := j } ∧ j ∈ l := by
  have hj : j ∈ l := by simpa using List.find?_some hnext
  have hinv : Inv L d { s with current := j } :=
    h.inv.frame rfl rfl rfl (fun _ _ _ => rfl) (fun _ _ => ⟨Iff.rfl, fun _ => ⟨rfl, rfl⟩⟩) fun _ _ _ _ _ => rfl
  refine ⟨?_, ⟨hinv, h.live, h.runnable, h.spinning⟩, hj⟩
  rw [WeensyOS.schedule, h.nextRunnable hc, hnext]
  simp only
  rw [runProc, assert_ok (h.runnable j hj), ok_bind]
  simp only
  rw [hinv.checkPagetable ((h.live j).2 hj), ok_bind]
  rfl

end

/-! ## `syscall_fork` -/

section
variable {b : State} {r c v : ℕ} {E K : List ℕ}

/-- The pages that the child has been given are few. -/
theorem ForkInv.length_le (h : ForkInv L b r c v E K s) (hE : E.length ≤ 1) (hv : v ≤ 768) :
    (E ++ K ++ tables s.mem 3 c).length ≤ (List.range 768).countP (copied b.mem r) + 6 := by
  have h1 := h.tables_le
  have h2 := h.copies
  have h3 : (List.range v).countP (copied b.mem r) ≤ (List.range 768).countP (copied b.mem r) :=
    (List.range_sublist.2 hv).countP_le
  simp only [List.length_append, tables, List.length_cons]
  omega

/-- The other free pages stay free. -/
theorem ForkInv.mem_freePages (h : ForkInv L b r c v E K s) (hb : Parent b r) (hv : v ≤ 768)
    (hp : p ∈ freePages L b.pages) (hp' : p ∉ E ++ K ++ tables s.mem 3 c) :
    p ∈ freePages L s.pages := by
  obtain ⟨halloc, h0⟩ := WeensyOS.mem_freePages.1 hp
  refine WeensyOS.mem_freePages.2 ⟨halloc, ?_⟩
  have hsh : p ∉ shares b.mem r v := fun hs => hb.pages p (hb.mem_procPages hv hs) h0
  rw [h.pages, List.count_append, List.count_eq_zero_of_not_mem hp',
    List.count_eq_zero_of_not_mem hsh, h0]
  rfl

theorem exists_mem_not_mem {A : Finset ℕ} {F : List ℕ} (h : F.length < A.card) :
    ∃ p ∈ A, p ∉ F := by
  obtain ⟨p, hp, hF⟩ := Finset.exists_mem_notMem_of_card_lt_card
    (lt_of_le_of_lt F.toFinset_card_le h)
  exact ⟨p, hp, fun hmem => hF (List.mem_toFinset.2 hmem)⟩

/-- There is memory at every page of the loop. -/
theorem ForkInv.exists_free (h : ForkInv L b r c v E K s) (hb : Parent b r) (hv : v ≤ 768)
    (hE : E.length ≤ 1)
    (hroom : (List.range 768).countP (copied b.mem r) + 6 < (freePages L b.pages).card) :
    (freePages L s.pages).Nonempty := by
  obtain ⟨p, hp, hp'⟩ := exists_mem_not_mem (lt_of_le_of_lt (h.length_le hE hv) hroom)
  exact ⟨p, h.mem_freePages hb hv hp hp'⟩

end

/-- The number of pages that a fork by the current process copies. -/
def copies (s : State) : ℕ := (List.range 768).countP (copied s.mem (s.root s.current))

/-- A call that has memory ends with the child's table complete. -/
theorem Forks.done_of_room {slot : ℕ} {res : Except Fault (ℤ × State)}
    (hb : Parent s (s.root s.current))
    (h : Forks L s (s.root s.current) res) (hslot : freeSlot s = some slot)
    (hroom : copies s + 6 < (freePages L s.pages).card) :
    ∃ c K s', ForkInv L (forkBase s slot c) (s.root s.current) c 768 [] K s' ∧
      res = .ok (slot, forked s' slot) := by
  cases h with
  | refused h =>
    rcases h with h | h
    · rw [hslot] at h
      cases h
    · obtain ⟨p, hp⟩ := Finset.card_pos.1 (lt_of_le_of_lt (Nat.zero_le _) hroom)
      obtain ⟨n, hn⟩ := exists_firstFree hp
      rw [h] at hn
      cases hn
  | @done slot' c K s' hslot' hc h =>
    rw [hslot] at hslot'
    cases hslot'
    exact ⟨c, K, s', h, rfl⟩
  | @stuck slot' c w E K s' hslot' hc hw h hE hnone =>
    obtain ⟨p, hp⟩ := h.exists_free ⟨hb.shaped, hb.used, hb.low, hb.pages⟩ hw.le hE hroom
    obtain ⟨n, hn⟩ := exists_firstFree hp
    rw [hnone] at hn
    cases hn

/-- **`syscall_fork`** succeeds if there is memory. -/
theorem Active.fork {k : ℕ} (h : Active L d l s) (hc : s.current ∈ l)
    (hslot : ((List.range' 1 (NPROC - 1)).find? fun i => i ∉ l) = some k) (hsafe : ForkSafe s)
    (hroom : copies s + 6 < (freePages L s.pages).card) :
    ∃ s', syscallFork L s = .ok (k, s') ∧ Active L d (k :: l) s' ∧ s'.current = s.current ∧
      s'.viewer = s.viewer ∧ Duplicated L s s' k ∧ (∀ i ∈ l, Keeps i s s') ∧
      (freePages L s'.pages).Nonempty := by
  have hlive := (h.live _).2 hc
  have hb := h.inv.parent hlive
  have hslot' : WeensyOS.freeSlot s = some k := h.freeSlot.trans hslot
  obtain ⟨c, K, s', hinv, hres⟩ := (h.inv.forks hlive hsafe).done_of_room hb hslot' hroom
  have hdup := hinv.duplicated h.inv.covered hlive hslot'
  have hstate : ∀ i, i ∈ k :: l ↔ (forked s' k).Live i := by
    intro i
    by_cases hi : i = k
    · subst hi
      rw [State.Live, hdup.state, h.runnable _ hc]
      simpa using hdup.slot.2.1
    · rw [List.mem_cons, State.Live, hdup.procs i hi, ← h.live]
      simp [hi, State.Live]
  refine ⟨forked s' k, hres, ⟨h.inv.fork_done hlive hsafe hslot' hinv, fun i => (hstate i).symm,
    fun i hi => ?_, ?_⟩, ?_, ?_, hdup, fun i hi => ⟨?_, ?_⟩, ?_⟩
  · by_cases hik : i = k
    · rw [hik, hdup.state]
      exact h.runnable _ hc
    · rw [hdup.procs i hik]
      exact h.runnable i ((List.mem_cons.1 hi).resolve_left hik)
  · rw [forked, State.setProc, hinv.rest]
    exact h.spinning
  · rw [forked, State.setProc, hinv.rest]
    rfl
  · rw [forked, State.setProc, hinv.rest]
    rfl
  · have hne : i ≠ k := by
      rintro rfl
      exact ((h.live i).2 hi).2 hdup.slot.2.2.1
    rw [State.root, State.root, hdup.procs i hne]
  · exact agree_of_used h.inv.covered ((h.live i).2 hi) hdup.mem
  · exact hinv.exists_free ⟨hb.shaped, hb.used, hb.low, hb.pages⟩ le_rfl (Nat.zero_le 1) hroom

theorem setProc_self {q : Proc} : (s.setProc i q).ptable i = q := Function.update_self _ _ _

theorem setProc_of_ne {q : Proc} (hj : j ≠ i) : (s.setProc i q).ptable j = s.ptable j :=
  Function.update_of_ne hj _ _

/-! ## `syscall_page_alloc` and `syscall_exit` -/

/-- **`syscall_page_alloc`** replaces a page if there is memory. -/
theorem Active.pageAlloc {addr n q : ℕ} (h : Active L d l s) (hc : s.current ∈ l)
    (hv : ValidAddr addr)
    (hfree : (freePages L s.pages).Nonempty)
    (htr : translate s.mem (s.root s.current) (addr / 4096) = some (n, q)) (huser : IsUser q) :
    ∃ s', syscallPageAlloc L s addr = .ok (0, s') ∧
      Active L (fun p => d p + if p = n then 1 else 0) l s' ∧ s'.current = s.current ∧
      s'.viewer = s.viewer ∧ ∀ i ∈ l, i ≠ s.current → Keeps i s s' := by
  have hlive := (h.live _).2 hc
  have hok := h.inv.procs _ hlive
  have hne : translate s.mem (s.root s.current) (addr / 4096) ≠ none := by
    rw [htr]
    exact Option.some_ne_none _
  have hlost : (fun p => d p + lost s addr 0 p) = fun p => d p + if p = n then 1 else 0 := by
    funext p
    rw [lost, if_pos rfl, userPage_eq_some.2 ⟨q, htr, huser⟩, Option.toList_some,
      List.count_singleton]
    exact congrArg (d p + ·) (if_congr (beq_iff_eq.trans eq_comm) rfl rfl)
  have hspec := syscallPageAlloc_spec (L := L) addr (h.inv.treeShaped.pagetable hlive)
    hok.shaped (h.inv.covered.tables hlive)
  generalize hres : syscallPageAlloc L s addr = res at hspec
  cases hspec with
  | refused hno =>
    rcases hno with hno | hno
    · exact absurd hv hno
    · obtain ⟨p, hp⟩ := hfree
      obtain ⟨n', hn'⟩ := exists_firstFree hp
      rw [hno] at hn'
      cases hn'
  | fault _ hbad => exact (hbad.elim (fun hp => hp (hok.full _)) fun hl => hl.1.ne' (hok.small _ hne)).elim
  | stuck _ hl _ _ _ => exact absurd (hok.small _ hne) hl.ne'
  | @done n' q' new s' _ _ _ _ hx _ _ _ _ _ =>
    obtain ⟨hinv, hrest, -⟩ := h.inv.pageAlloc hlive hres
    rw [hlost] at hinv
    have hptable : s'.ptable = s.ptable := by rw [hrest]
    refine ⟨s', rfl, ⟨hinv, fun i => ?_, fun i hi => ?_, ?_⟩, by rw [hrest], by rw [hrest],
      fun i hi hic => ⟨?_, hx.agree h.inv.treeShaped h.inv.covered hlive ((h.live i).2 hi) hic⟩⟩
    · rw [State.Live, hptable]
      exact h.live i
    · rw [hptable]
      exact h.runnable i hi
    · rw [hrest]
      exact h.spinning
    · rw [State.root, State.root, hptable]

/-- **`syscall_exit`** frees the slot. -/
theorem Active.exit (h : Active L d l s) (hc : s.current ∈ l) :
    syscallExit s = .ok (s.exited s.current) ∧
      Active L d (l.filter fun i => i ≠ s.current) (s.exited s.current) ∧
      ∀ i, i ≠ s.current → Keeps i s (s.exited s.current) := by
  have hlive := (h.live _).2 hc
  have hothers : ∀ i, i ≠ s.current → (s.exited s.current).ptable i = s.ptable i := fun i hi =>
    setProc_of_ne hi
  refine ⟨h.inv.syscallExit hlive, ⟨h.inv.exited hlive, fun i => ?_, fun i hi => ?_, h.spinning⟩,
    fun i hi => ⟨?_, fun _ _ _ => rfl⟩⟩
  · rw [List.mem_filter, decide_eq_true_iff]
    by_cases hi : i = s.current
    · refine iff_of_false (fun hl => hl.2 ?_) fun hmem => hmem.2 hi
      rw [hi, State.exited, setProc_self]
    · rw [State.Live, hothers i hi, ← h.live]
      simp [hi, State.Live]
  · obtain ⟨hmem, hne⟩ := List.mem_filter.1 hi
    rw [hothers i (of_decide_eq_true hne)]
    exact h.runnable i hmem
  · rw [State.root, State.root, hothers i hi]

/-! ## Turns -/

/-- It is the turn of the process in the slot `c`, and the viewer has the page at `V`. -/
structure Turn (L : Layout) (d : ℕ → ℕ) (l : List ℕ) (c V : ℕ) (s : State) : Prop where
  active : Active L d l s
  current : s.current = c
  mem : c ∈ l
  viewer : s.viewer = V

/-- The event of a system call. -/
def call (rax rdi : ℕ) : Event := .syscall { noRegs with rax := rax, rdi := rdi }

theorem step_syscall {regs : Regs} {r : Option ℤ} {s₁ s₂ : State} (hspin : s.spinning = false)
    (hshow : memshow L (saveRegs s regs) = .ok s₁) (hdisp : dispatch L s₁ regs = .ok (r, s₂))
    (hrun : r.isSome → (s₂.ptable s₂.current).state = .runnable) :
    step L s (.syscall regs) = .ok s₂ := by
  rw [step, if_neg (by rw [hspin]; decide), syscallEntry, syscall]
  simp only
  rw [hshow, ok_bind, hdisp, ok_bind]
  simp only
  rw [assert_ok hrun, ok_bind]
  rfl

theorem Active.saveRegs (h : Active L d l s) (regs : Regs) : Active L d l (saveRegs s regs) := by
  refine ⟨h.inv.saveRegs regs, fun i => saveRegs_live.trans (h.live i), fun i hi => ?_, h.spinning⟩
  by_cases hic : i = s.current
  · rw [hic, WeensyOS.saveRegs, setProc_self, ← hic]
    exact h.runnable i hi
  · rw [WeensyOS.saveRegs, setProc_of_ne hic]
    exact h.runnable i hi

theorem keeps_saveRegs {regs : Regs} : Keeps i s (saveRegs s regs) :=
  ⟨saveRegs_root, fun _ _ _ => rfl⟩

/-- The page of the viewer, after it has been shown. -/
def shown (L : Layout) (s : State) : ℕ :=
  if s.viewer = 0 then (firstFree L s.pages).getD 0 * 4096 else s.viewer

theorem Inv.memshow_ok (h : Inv L d s) (hview : shown L s ≠ 0) :
    ∃ s', WeensyOS.memshow L s = .ok s' ∧
    s'.viewer = shown L s ∧ (s.viewer ≠ 0 → s'.pages = s.pages) := by
  rw [WeensyOS.memshow, assert_ok h.slot0, ok_bind]
  rw [shown] at hview ⊢
  by_cases hv : s.viewer = 0
  · rw [if_pos hv] at hview ⊢
    cases hn : firstFree L s.pages with
    | none =>
      rw [hn] at hview
      exact absurd (Nat.zero_mul 4096) hview
    | some n =>
      rw [hn, Option.getD_some] at hview
      rw [if_pos hv, kalloc_some hn, Option.getD_some]
      simp only
      rw [assert_ok hview, ok_bind]
      exact ⟨_, rfl, rfl, fun hne => absurd hv hne⟩
  · rw [if_neg hv, if_neg hv]
    exact ⟨_, rfl, rfl, fun _ => rfl⟩

/-- What happens before the system call proper. -/
theorem Turn.enter {c V : ℕ} (h : Turn L d l c V s) (hview : shown L s ≠ 0) (regs : Regs) :
    ∃ s₁, memshow L (saveRegs s regs) = .ok s₁ ∧ Turn L d l c (shown L s) s₁ ∧
      (V ≠ 0 → s₁.pages = s.pages) ∧ ∀ i ∈ l, Keeps i s s₁ := by
  have hact := h.active.saveRegs regs
  have hshown : shown L (saveRegs s regs) = shown L s := rfl
  obtain ⟨s₁, hres, hviewer, hpages⟩ := hact.inv.memshow_ok (hshown ▸ hview)
  rw [hshown] at hviewer
  obtain ⟨hinv, hq⟩ := hact.inv.memshow hres
  refine ⟨s₁, hres, ⟨⟨hinv, fun i => hq.live.trans (hact.live i), fun i hi => ?_, ?_⟩, ?_, h.mem,
    hviewer⟩,
    fun hV => hpages ?_, fun i hi => keeps_saveRegs.trans ⟨hq.root, hq.agree i ((hact.live i).2 hi)⟩⟩
  · rw [hq.ptable]
    exact hact.runnable i hi
  · rw [hq.spinning]
    exact hact.spinning
  · rw [hq.current]
    exact h.current
  · rw [← h.viewer] at hV
    exact hV

section
variable {c V : ℕ} (h : Turn L d l c V s)
include h

theorem Turn.pid : (s.ptable s.current).pid = c := by
  rw [h.active.inv.pid _ ((h.active.live _).2 (h.current ▸ h.mem)), h.current]

theorem Turn.shown (hV : V ≠ 0) : shown L s = V := by
  rw [WeensyOS.shown, if_neg (by rw [h.viewer]; exact hV), h.viewer]

/-- The next process runs. -/
theorem Turn.yield (hview : WeensyOS.shown L s ≠ 0)
    (hnext : (((List.range NPROC).map fun k => (c + 1 + k) % NPROC).find? fun i => i ∈ l) = some j) :
    ∃ s', step L s (call SYSCALL_YIELD 0) = .ok s' ∧ Turn L d l j (WeensyOS.shown L s) s' ∧
      (V ≠ 0 → s'.pages = s.pages) ∧ ∀ i ∈ l, Keeps i s s' := by
  obtain ⟨s₁, hshow, h₁, hpages, hkeeps⟩ := h.enter hview { noRegs with rax := SYSCALL_YIELD, rdi := 0 }
  have hact := h₁.active.saveRegs { (s₁.ptable s₁.current).regs with rax := 0 }
  have hpid : ((saveRegs s₁ { (s₁.ptable s₁.current).regs with rax := 0 }).ptable s₁.current).pid =
      c := by
    rw [saveRegs, setProc_self]
    exact h₁.pid
  obtain ⟨hsched, hact', hj⟩ := hact.schedule hpid hnext
  refine ⟨_, step_syscall h.active.spinning hshow (r := none) ?_ (fun hr => by cases hr),
    ⟨hact', rfl, hj, h₁.viewer⟩, hpages, fun i hi =>
      (hkeeps i hi).trans ⟨saveRegs_root, fun _ _ _ => rfl⟩⟩
  rw [dispatch, if_neg (by decide), if_pos rfl]
  simp only
  rw [hsched, ok_bind]
  rfl

/-- The process exits, and the next one runs. -/
theorem Turn.exit (hview : WeensyOS.shown L s ≠ 0)
    (hnext : (((List.range NPROC).map fun k => (c + 1 + k) % NPROC).find?
      fun i => i ∈ l.filter fun i => i ≠ c) = some j) :
    ∃ s', step L s (call SYSCALL_EXIT 0) = .ok s' ∧
      Turn L d (l.filter fun i => i ≠ c) j (WeensyOS.shown L s) s' ∧
      ∀ i ∈ l, i ≠ c → Keeps i s s' := by
  obtain ⟨s₁, hshow, h₁, -, hkeeps⟩ := h.enter hview { noRegs with rax := SYSCALL_EXIT, rdi := 0 }
  have hcur := h₁.current
  obtain ⟨hexit, hact, hkeeps'⟩ := h₁.active.exit (hcur ▸ h₁.mem)
  have hpid := h₁.pid
  rw [hcur] at hact hkeeps' hexit hpid
  have hpid' : ((s₁.exited c).ptable (s₁.exited c).current).pid = c := by
    change ((s₁.exited c).ptable s₁.current).pid = c
    rw [hcur, State.exited, setProc_self]
    exact hpid
  obtain ⟨hsched, hact', hj⟩ := hact.schedule hpid' hnext
  refine ⟨_, step_syscall h.active.spinning hshow (r := none) ?_ (fun hr => by cases hr),
    ⟨hact', rfl, hj, h₁.viewer⟩, fun i hi hic => (hkeeps i hi).trans ⟨(hkeeps' i hic).root,
      fun _ _ _ => rfl⟩⟩
  rw [dispatch, if_neg (by decide), if_neg (by decide), if_neg (by decide), if_neg (by decide),
    if_pos rfl, hexit, ok_bind, hsched, ok_bind]
  rfl

/-- The process forks. -/
theorem Turn.fork {k : ℕ} (hV : V ≠ 0)
    (hslot : ((List.range' 1 (NPROC - 1)).find? fun i => i ∉ l) = some k) (hsafe : ForkSafe s)
    (hroom : copies s + 6 < (freePages L s.pages).card) :
    ∃ s', step L s (call SYSCALL_FORK 0) = .ok s' ∧ Turn L d (k :: l) c V s' ∧
      (∀ i ∈ l, Keeps i s s') ∧ (freePages L s'.pages).Nonempty ∧
      ∀ v < 768, ∀ n q, translate s.mem (s.root c) v = some (n, q) → ¬ IsWritable q →
        ∃ q', translate s'.mem (s'.root k) v = some (n, q') ∧ pwu q' = pwu q := by
  have hshown := h.shown hV
  obtain ⟨s₁, hshow, h₁, hpages, hkeeps⟩ := h.enter (by rw [hshown]; exact hV)
    { noRegs with rax := SYSCALL_FORK, rdi := 0 }
  have hk := hkeeps c h.mem
  have hsafe₁ : ForkSafe s₁ := by
    intro p hp
    rw [h₁.current, hk.shares, ← h.current] at hp
    rw [hpages hV]
    exact hsafe p hp
  have hcopies : copies s₁ = copies s := by
    rw [copies, copies, h₁.current, h.current, hk.copied]
  obtain ⟨s', hfork, hact, hcur, hviewer, hdup, hkeeps', hfree⟩ := h₁.active.fork
    (h₁.current ▸ h₁.mem) hslot hsafe₁ (by rw [hcopies, hpages hV]; exact hroom)
  refine ⟨s', step_syscall h.active.spinning hshow (r := some (k : ℤ)) ?_ (fun _ => ?_),
    ⟨hact, hcur.trans h₁.current, List.mem_cons_of_mem _ h.mem,
      hviewer.trans (h₁.viewer.trans hshown)⟩,
    fun i hi => (hkeeps i hi).trans (hkeeps' i hi), hfree, fun v hv n q htr hw => ?_⟩
  · rw [dispatch, if_neg (by decide), if_neg (by decide), if_neg (by decide), if_pos rfl, hfork,
      ok_bind]
    rfl
  · refine hact.runnable _ (List.mem_cons_of_mem _ ?_)
    rw [hcur, h₁.current]
    exact h.mem
  · rw [← hk.translate, ← h₁.current] at htr
    obtain ⟨n', q', h1, h2, h3⟩ := hdup.present v hv n q htr
    rw [if_neg fun hc => hw hc.2.1] at h3
    rw [h3] at h1
    exact ⟨q', h1, h2⟩

/-- The process replaces a page. -/
theorem Turn.pageAlloc {addr n q : ℕ} (hV : V ≠ 0) (hv : ValidAddr addr)
    (hfree : (freePages L s.pages).Nonempty)
    (htr : translate s.mem (s.root c) (addr / 4096) = some (n, q)) (huser : IsUser q) :
    ∃ s', step L s (call SYSCALL_PAGE_ALLOC addr) = .ok s' ∧
      Turn L (fun p => d p + if p = n then 1 else 0) l c V s' ∧ ∀ i ∈ l, i ≠ c → Keeps i s s' := by
  have hshown := h.shown hV
  obtain ⟨s₁, hshow, h₁, hpages, hkeeps⟩ := h.enter (by rw [hshown]; exact hV)
    { noRegs with rax := SYSCALL_PAGE_ALLOC, rdi := addr }
  rw [← (hkeeps c h.mem).translate, ← h₁.current] at htr
  obtain ⟨s', halloc, hact, hcur, hviewer, hkeeps'⟩ := h₁.active.pageAlloc
    (h₁.current ▸ h₁.mem) hv (by rw [hpages hV]; exact hfree) htr huser
  refine ⟨s', step_syscall h.active.spinning hshow (r := some 0) ?_ (fun _ => ?_),
    ⟨hact, hcur.trans h₁.current, h.mem, hviewer.trans (h₁.viewer.trans hshown)⟩,
    fun i hi hic => (hkeeps i hi).trans (hkeeps' i hi (by rw [h₁.current]; exact hic))⟩
  · rw [dispatch, if_neg (show SYSCALL_PAGE_ALLOC ≠ SYSCALL_GETPID by decide),
      if_neg (show SYSCALL_PAGE_ALLOC ≠ SYSCALL_YIELD by decide), if_pos rfl, halloc, ok_bind]
    rfl
  · refine hact.runnable _ ?_
    rw [hcur, h₁.current]
    exact h.mem

end

end CProj.WeensyOS
