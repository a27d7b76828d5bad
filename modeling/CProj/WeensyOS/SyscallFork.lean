/-
  `syscall_fork`.
-/
import CProj.WeensyOS.Checks

namespace CProj.WeensyOS

variable {L : Layout} {s s' : State} {r c slot : ℕ}

/-! ## The call -/

/-- The state in which the slot of the child has its page table. -/
def forkBase (s : State) (slot c : ℕ) : State :=
  s.setProc slot { s.ptable slot with pagetable := c * 4096 }

/-- The state after the child's slot has been filled in. -/
def forked (s : State) (slot : ℕ) : State :=
  s.setProc slot { s.ptable slot with
    pid := slot
    regs := { (s.ptable s.current).regs with rax := 0 }
    state := (s.ptable s.current).state }

theorem freeSlot_some (h : freeSlot s = some slot) :
    1 ≤ slot ∧ slot < NPROC ∧ (s.ptable slot).state = .free ∧
      ∀ i, 1 ≤ i → i < slot → (s.ptable i).state ≠ .free := by
  obtain ⟨h1, as, bs, heq, h2⟩ := List.find?_eq_some_iff_append.1 h
  have hmem : slot ∈ List.range' 1 (NPROC - 1) := List.mem_of_find?_eq_some h
  have hrange : 1 ≤ slot ∧ slot < 16 := List.mem_range'_1.1 hmem
  refine ⟨hrange.1, hrange.2, of_decide_eq_true h1, fun i hi hlt => ?_⟩
  have hsorted : (as ++ slot :: bs).Pairwise (· < ·) := heq ▸ List.pairwise_lt_range'
  have hi' : i ∈ as ++ slot :: bs := by
    rw [← heq]
    exact List.mem_range'_1.2 ⟨hi, show i < 16 by omega⟩
  rcases List.mem_append.1 hi' with hi' | hi'
  · simpa using h2 i hi'
  · rcases List.mem_cons.1 hi' with rfl | hi'
    · omega
    · have := (List.pairwise_cons.1 (List.pairwise_append.1 hsorted).2.1).1 i hi'
      omega

/-- The ways in which `syscall_fork` ends. -/
inductive Forks (L : Layout) (s : State) (r : ℕ) : Except Fault (ℤ × State) → Prop
  /-- there is no slot, or no page for the root -/
  | refused (h : freeSlot s = none ∨ firstFree L s.pages = none) : Forks L s r (.ok (-1, s))
  | done {slot c K s'} (hslot : freeSlot s = some slot) (hc : firstFree L s.pages = some c)
    (h : ForkInv L (forkBase s slot c) r c 768 [] K s') : Forks L s r (.ok (slot, forked s' slot))
  /-- there is no memory for a page or a table of the child -/
  | stuck {slot c w E K s'} (hslot : freeSlot s = some slot) (hc : firstFree L s.pages = some c)
    (hw : w < 768) (h : ForkInv L (forkBase s slot c) r c w E K s') (hE : E.length ≤ 1)
    (hnone : firstFree L s'.pages = none) :
    Forks L s r (cleanup c E s' >>= fun x => .ok (-1, x.2))

/-- The call after its first allocation. -/
theorem syscallFork_eq (hslot : freeSlot s = some slot) (hc : firstFree L s.pages = some c) :
    syscallFork L s = (do
      let s' := (forkBase s slot c).alloc c 0
      let it ← Vmiter.create s'.mem (s'.ptable s'.current).pagetable 0
      let x ← forkLoop L (c * 4096) (MEMSIZE_VIRTUAL / PAGESIZE + 1) it s'
      if x.1 = true then .ok (slot, forked x.2 slot) else .ok (-1, x.2)) := by
  have hpos : ¬ c * 4096 = 0 := by
    have := (firstFree_some hc).1.pos
    omega
  have hstart : ({ ((s.alloc c 0xCCCCCCCCCCCCCCCC).setProc slot
      { s.ptable slot with pagetable := c * 4096 }) with
      mem := (s.alloc c 0xCCCCCCCCCCCCCCCC).mem.fill c 0 } : State) =
      (forkBase s slot c).alloc c 0 := by
    simp only [State.alloc, State.setProc, forkBase, fill_fill]
  rw [syscallFork, hslot]
  simp only
  rw [kalloc_some hc]
  simp only [hpos, if_false, page_div]
  rw [← hstart]
  rfl

/-- **`syscall_fork`** ends in one of these ways. -/
theorem syscallFork_spec (hlive : s.Live s.current) (hr : (s.ptable s.current).pagetable = r * 4096)
    (hb : Parent s r) (hf : ∀ slot c, FreshAlloc L (forkBase s slot c) r c)
    (hin : ∀ p ∈ shares s.mem r 768, p < NPAGES) : Forks L s r (syscallFork L s) := by
  cases hslot : freeSlot s with
  | none =>
    rw [syscallFork, hslot]
    exact .refused (Or.inl hslot)
  | some slot =>
    cases hc : firstFree L s.pages with
    | none =>
      rw [syscallFork, hslot]
      simp only
      rw [kalloc_none hc]
      exact .refused (Or.inr hc)
    | some c =>
      obtain ⟨halloc, h0⟩ := firstFree_some hc
      obtain ⟨-, -, hstate, -⟩ := freeSlot_some hslot
      have hne : s.current ≠ slot := by
        intro heq
        rw [← heq] at hstate
        exact hlive.2 hstate
      have hb' : Parent (forkBase s slot c) r := ⟨hb.shaped, hb.used, hb.low, hb.pages⟩
      have hinit : ForkInv L (forkBase s slot c) r c 0 [] [] ((forkBase s slot c).alloc c 0) :=
        forkInv_init h0 halloc
      have hpt : (((forkBase s slot c).alloc c 0).ptable s.current).pagetable = r * 4096 := by
        rw [← hr]
        change (Function.update s.ptable slot _ s.current).pagetable = _
        rw [Function.update_of_ne hne]
      have hcreate : Vmiter.create ((forkBase s slot c).alloc c 0).mem (r * 4096) 0 =
          .ok (parentIt (forkBase s slot c) r 0) := by
        rw [create_eq ((hinit.agree hb').shaped hb'.shaped) (canonical_of_lt (by decide)) (by decide)]
        exact congrArg Except.ok (by simpa [parentIt] using (hinit.parent hb' 0).1)
      rw [syscallFork_eq hslot hc]
      simp only
      have hcur : ((forkBase s slot c).alloc c 0).current = s.current := rfl
      rw [hcur, hpt, hcreate, ok_bind]
      rcases forkLoop_spec hb' (hf slot c) 768 (MEMSIZE_VIRTUAL / PAGESIZE + 1) 0 [] _ rfl
        (by decide)
        hinit with ⟨K, s', hok, h⟩ | ⟨-, p, hp, hge⟩ | ⟨w, E, K, s', hw, h, hE, hnone, heq⟩
      · rw [hok, ok_bind, if_pos rfl]
        exact .done hslot hc h
      · exact absurd (hin p hp) (not_lt.2 hge)
      · rw [heq, cleanup_bind (g := fun x => .ok (-1, x.2)) fun s => rfl]
        exact .stuck hslot hc hw h hE hnone

/-- The call of a process with exact counts that do not overflow. -/
theorem Exact.syscallFork (hx : Exact s) (ht : TreeShaped s) (hlive : s.Live s.current)
    (hlow : LowConsole s.mem (s.root s.current)) (hw : NoWrap s (s.root s.current)) :
    Forks L s (s.root s.current) (syscallFork L s) := by
  have hb := hx.parent ht hlive hlow
  refine syscallFork_spec hlive (ht.pagetable hlive) hb (fun slot c => ?_) fun p hp => ?_
  · exact freshAlloc_of_noWrap ⟨hb.shaped, hb.used, hb.low, hb.pages⟩ hw
  · exact (hx.owned_used hlive (mem_owned.2 (Or.inl (hb.mem_procPages le_rfl hp)))).1

/-! ## A call that fails -/

/-- The state `s'` shows no trace of a call made in `s`. -/
structure NoTrace (L : Layout) (s s' : State) : Prop where
  pages : s'.pages = s.pages
  procs : ∀ i, s.Live i → s'.ptable i = s.ptable i
  slots : ∀ i, (s'.ptable i).state = (s.ptable i).state
  translate : ∀ i, s.Live i → ∀ v, translate s'.mem (s.root i) v = translate s.mem (s.root i) v
  /-- only pages that were free may have changed -/
  mem : ∀ p, ¬ (Alloc L p ∧ s.pages p = 0) → s'.mem p = s.mem p

theorem NoTrace.refl : NoTrace L s s :=
  ⟨rfl, fun _ _ => rfl, fun _ => rfl, fun _ _ _ => rfl, fun _ _ => rfl⟩

theorem agree_of_used {m : Mem} (hcov : Covered s) {i : ℕ} (hi : s.Live i)
    (hm : ∀ p, ¬ (Alloc L p ∧ s.pages p = 0) → m p = s.mem p) :
    Agree s.mem m (tables s.mem 3 (s.root i)) := by
  intro p hp k
  rw [hm p fun h => hcov.tables hi p hp h.2]

theorem ForkInv.unused {b : State} {v : ℕ} {E K : List ℕ} (h : ForkInv L b r c v E K s) {p : ℕ}
    (hp : ¬ (Alloc L p ∧ b.pages p = 0)) : s.mem p = b.mem p :=
  h.mem p fun hmem => hp ⟨(h.fresh p hmem).2, (h.fresh p hmem).1⟩

/-- **A failed call leaves no trace.** -/
theorem syscallFork_noTrace (hx : Exact s) (ht : TreeShaped s) (hlive : s.Live s.current)
    (hlow : LowConsole s.mem (s.root s.current)) (hw : NoWrap s (s.root s.current))
    (hro : ∀ p ∈ shares s.mem (s.root s.current) 768, p ≠ 0 ∧ p ≠ CONSOLE_PAGE)
    (h : syscallFork L s = .ok (-1, s')) : NoTrace L s s' := by
  have hb := hx.parent ht hlive hlow
  have hforks := hx.syscallFork (L := L) ht hlive hlow hw
  rw [h] at hforks
  generalize hres : (Except.ok (-1, s') : Except Fault (ℤ × State)) = res at hforks
  cases hforks with
  | refused _ =>
    cases hres
    exact .refl
  | @done slot c K s₁ hslot hc hinv =>
    have heq := congrArg Prod.fst (Except.ok.inj hres)
    simp only at heq
    omega
  | @stuck slot c w E K s₁ hslot hc hw' hinv hE hnone =>
    have hb' : Parent (forkBase s slot c) (s.root s.current) :=
      ⟨hb.shaped, hb.used, hb.low, hb.pages⟩
    have hfree : ∀ p ∈ shares s.mem (s.root s.current) w, Freeable p := by
      intro p hp
      have hp' := hb.mem_procPages hw'.le hp
      have hmem : p ∈ shares s.mem (s.root s.current) 768 :=
        List.count_pos_iff.1 (lt_of_lt_of_le (List.count_pos_iff.2 hp) (shares_count_le hw'.le))
      obtain ⟨h0, hcon⟩ := hro p hmem
      refine ⟨Nat.pos_of_ne_zero h0, (hx.owned_used hlive (mem_owned.2 (Or.inl hp'))).1, ?_⟩
      intro heq
      exact hcon (by rw [CONSOLE_PAGE, ← heq, page_div])
    rw [cleanup_spec hinv hb' hw hw'.le hE hfree, ok_bind] at hres
    obtain rfl : s' = { forkBase s slot c with mem := s₁.mem } := by
      simpa using hres
    obtain ⟨-, -, hstate, -⟩ := freeSlot_some hslot
    have hmem : ∀ p, ¬ (Alloc L p ∧ s.pages p = 0) → s₁.mem p = s.mem p :=
      fun p hp => hinv.unused hp
    refine ⟨rfl, fun i hi => ?_, fun i => ?_, fun i hi v =>
      (agree_of_used hx.covered hi hmem).translate, hmem⟩
    · refine Function.update_of_ne ?_ _ _
      rintro rfl
      exact hi.2 hstate
    · change (Function.update s.ptable slot _ i).state = _
      rw [Function.update_apply]
      split_ifs with hi
      · rw [hi]
      · rfl

/-! ### Calls without memory -/

/-- A kernel image that leaves the least memory to the processes. -/
def largeKernel : Layout :=
  ⟨0x7F000, 0x50000, 0x41000, by decide, smallKernel.pagetable_aligned, by decide, by decide⟩

/-- The `k`-th page that `kalloc` may hand out. -/
def nthPage (k : ℕ) : ℕ := if k < 63 then k + 1 else if k < 95 then k + 65 else k + 161

/-- The entries that map the pages from the `b`-th on, and before the `n`-th, from address
    `0x101000` on, except that `v` has the entry `e`. -/
def fullTable (b n v e w : ℕ) : ℕ :=
  if w = v then e else if 257 ≤ w ∧ w + b < 257 + n then nthPage (w + b - 257) * 4096 + 7 else 0

/-- The counts if the first 347 pages are in use once. -/
def fullPages (p : ℕ) : UInt8 :=
  if allocatablePhysicalAddress largeKernel (p * PAGESIZE) && p < 508 then 1 else 0

/-- A process that leaves 4 pages free, with the entry `e` for the page `v`. -/
def fullMemory (v e : ℕ) (pages : ℕ → UInt8) : State :=
  stateOf [(1, 1)] (tableMem 1 (fullTable 5 347 v e)) pages

/-- The process shares its first page. -/
def fullShared : State := fullMemory 257 (6 * 4096 + 5) fullPages

theorem syscallFork_noTrace_full : ∃ s', syscallFork largeKernel fullShared = .ok (-1, s') ∧
    NoTrace largeKernel fullShared s' := by
  have hret : returns (syscallFork largeKernel fullShared) (-1) (fun _ => true) = true := by
    decide +kernel
  obtain ⟨s', h, -⟩ := exists_of_returns hret
  have hshares : shares fullShared.mem 1 768 = [6] := by decide +kernel
  refine ⟨s', h, syscallFork_noTrace (exact_of_check (by decide +kernel))
    (stateOf_treeShaped (by decide +kernel)) (by decide)
    (lowConsole_of_check (small_of_check (by decide +kernel)) (by decide +kernel))
    (noWrap_of_check hshares (by decide)) (fun p hp => ?_) h⟩
  change p ∈ shares fullShared.mem 1 768 at hp
  rw [hshares, List.mem_singleton] at hp
  subst hp
  decide

/-- The process has read-only access to a page of the kernel, below `PROC_START_ADDR`. -/
def lowShared : State := fullMemory 255 (0x40 * 4096 + 5) fullPages

/-- The process has read-only access to the console above `PROC_START_ADDR`. -/
def consoleShared : State :=
  fullMemory 256 (CONSOLE_PAGE * 4096 + 5) (Function.update fullPages CONSOLE_PAGE 1)

/-- Another process shares the page 507 with this one at 254 addresses. -/
def manyShared : State :=
  stateOf [(1, 1), (2, 6)]
    (fun p => if p < 6 then tableMem 1 (fullTable 10 346 256 (507 * 4096 + 5)) p
      else tableMem 6 (fun w => if 256 ≤ w ∧ w < 510 then 507 * 4096 + 5 else 0) p)
    (Function.update fullPages 507 255)

/-- A call that fails leaves no trace. -/
def FailsCleanly (L : Layout) (s : State) : Prop :=
  ∀ s', syscallFork L s = .ok (-1, s') → NoTrace L s s'

/-- A call that changes the count of a page does not fail cleanly. -/
theorem not_failsCleanly {p : ℕ}
    (h : returns (syscallFork L s) (-1) (fun s' => s'.pages p != s.pages p) = true) :
    ¬ FailsCleanly L s := by
  intro hclean
  obtain ⟨s', hres, hne⟩ := exists_of_returns h
  rw [(hclean s' hres).pages, bne_self_eq_false] at hne
  cases hne

/-- Each of the three states keeps a count that the call has raised. -/
theorem syscallFork_leaves_trace : [lowShared, consoleShared, manyShared].Forall fun s =>
    Exact s ∧ TreeShaped s ∧ s.Live s.current ∧ ¬ FailsCleanly largeKernel s := by
  refine List.forall_iff_forall_mem.2 fun s hs => ?_
  simp only [List.mem_cons, List.not_mem_nil, or_false] at hs
  rcases hs with rfl | rfl | rfl
  · exact ⟨exact_of_check (by decide +kernel), stateOf_treeShaped (by decide +kernel), by decide,
      not_failsCleanly (p := 0x40) (by decide +kernel)⟩
  · exact ⟨exact_of_check (by decide +kernel), stateOf_treeShaped (by decide +kernel), by decide,
      not_failsCleanly (p := CONSOLE_PAGE) (by decide +kernel)⟩
  · exact ⟨exact_of_check (by decide +kernel), stateOf_treeShaped (by decide +kernel), by decide,
      not_failsCleanly (p := 507) (by decide +kernel)⟩

/-! ## A call that succeeds -/

/-- In `s'` the process in the slot `k` is a copy of the process that was current in `s`. -/
structure Duplicated (L : Layout) (s s' : State) (k : ℕ) : Prop where
  slot : 1 ≤ k ∧ k < NPROC ∧ (s.ptable k).state = .free ∧
    ∀ i, 1 ≤ i → i < k → (s.ptable i).state ≠ .free
  state : (s'.ptable k).state = (s.ptable s.current).state
  regs : (s'.ptable k).regs = { (s.ptable s.current).regs with rax := 0 }
  absent : ∀ v < 768, translate s.mem (s.root s.current) v = none →
    translate s'.mem (s'.root k) v = none
  present : ∀ v < 768, ∀ n q, translate s.mem (s.root s.current) v = some (n, q) →
    ∃ n' q', translate s'.mem (s'.root k) v = some (n', q') ∧ pwu q' = pwu q ∧
      -- a user-writable page other than the console is copied, any other is shared
      if IsUser q ∧ IsWritable q ∧ v ≠ CONSOLE_PAGE then
        Alloc L n' ∧ s.pages n' = 0 ∧ s'.mem n' = s.mem n else n' = n
  distinct : ∀ v < 768, ∀ v' < 768, copied s.mem (s.root s.current) v →
    copied s.mem (s.root s.current) v' →
    userPage s'.mem (s'.root k) v = userPage s'.mem (s'.root k) v' → v = v'
  translate : ∀ i, s.Live i → ∀ v, translate s'.mem (s.root i) v = translate s.mem (s.root i) v
  /-- only pages that were free may have changed -/
  mem : ∀ p, ¬ (Alloc L p ∧ s.pages p = 0) → s'.mem p = s.mem p
  procs : ∀ i, i ≠ k → s'.ptable i = s.ptable i

/-- The process table after a successful call. -/
theorem ForkInv.ptable {K : List ℕ} (hlive : s.Live s.current) (hslot : freeSlot s = some slot)
    (h : ForkInv L (forkBase s slot c) r c 768 [] K s') :
    (∀ i, i ≠ slot → (forked s' slot).ptable i = s.ptable i) ∧
      (forked s' slot).ptable slot = ⟨c * 4096, slot, (s.ptable s.current).state,
        { (s.ptable s.current).regs with rax := 0 }⟩ := by
  have hne : s.current ≠ slot := by
    intro heq
    have hstate := (freeSlot_some hslot).2.2.1
    rw [← heq] at hstate
    exact hlive.2 hstate
  have hptable : s'.ptable = (forkBase s slot c).ptable := by rw [h.rest]
  have hcurrent : s'.current = s.current := by
    rw [h.rest]
    rfl
  have hparent : s'.ptable s'.current = s.ptable s.current := by
    rw [hptable, hcurrent]
    exact Function.update_of_ne hne _ _
  have hchild : (s'.ptable slot).pagetable = c * 4096 := by
    rw [hptable]
    change (Function.update s.ptable slot _ slot).pagetable = _
    rw [Function.update_self]
  constructor
  · intro i hi
    change Function.update s'.ptable slot _ i = _
    rw [Function.update_of_ne hi, hptable]
    exact Function.update_of_ne hi _ _
  · change Function.update s'.ptable slot _ slot = _
    rw [Function.update_self, hparent, hchild]

/-- What the invariant says at the end of the loop. -/
theorem ForkInv.duplicated {K : List ℕ} (hcov : Covered s) (hlive : s.Live s.current)
    (hslot : freeSlot s = some slot)
    (h : ForkInv L (forkBase s slot c) (s.root s.current) c 768 [] K s') :
    Duplicated L s (forked s' slot) slot := by
  obtain ⟨hothers, hself⟩ := h.ptable hlive hslot
  have hroot : (forked s' slot).root slot = c := by
    rw [State.root, hself]
    exact page_div c
  have hmem : ∀ p, ¬ (Alloc L p ∧ s.pages p = 0) → s'.mem p = s.mem p := fun p hp => h.unused hp
  refine ⟨freeSlot_some hslot, by rw [hself], by rw [hself], fun v hv hnone => ?_,
    fun v hv n q htr => ?_,
    by rw [hroot]; exact h.inj, fun i hi v => (agree_of_used hcov hi hmem).translate, hmem, hothers⟩
  · have hm := h.maps v hv
    change Maps s.mem (s.root s.current) s'.mem c K v at hm
    rw [Maps, hnone] at hm
    rw [hroot]
    exact hm
  · have hm := h.maps v hv
    change Maps s.mem (s.root s.current) s'.mem c K v at hm
    rw [Maps, htr] at hm
    obtain ⟨n', q', h1, h2, h3⟩ := hm
    refine ⟨n', q', by rw [hroot]; exact h1, h2, ?_⟩
    by_cases hc : copied s.mem (s.root s.current) v = true
    · rw [if_pos hc] at h3
      obtain ⟨hfree, halloc⟩ := h.fresh n' (List.mem_append_left _ h3.1)
      obtain ⟨n₁, q₁, htr₁, huser, hcon, hwr⟩ := copied_iff.1 hc
      rw [htr] at htr₁
      cases htr₁
      rw [if_pos ⟨huser, hwr, hcon⟩]
      exact ⟨halloc, hfree, h3.2⟩
    · rw [if_neg hc] at h3
      rw [if_neg fun hq => hc (copied_iff.2 ⟨n, q, htr, hq.1, hq.2.2, hq.2.1⟩)]
      exact h3

/-- **A successful call duplicates the address space.** -/
theorem syscallFork_duplicates (hx : Exact s) (ht : TreeShaped s) (hlive : s.Live s.current)
    (hlow : LowConsole s.mem (s.root s.current)) (hw : NoWrap s (s.root s.current)) {k : ℤ}
    (hk : 0 < k) (h : syscallFork L s = .ok (k, s')) :
    ∃ slot : ℕ, k = slot ∧ Duplicated L s s' slot := by
  have hforks := hx.syscallFork (L := L) ht hlive hlow hw
  rw [h] at hforks
  generalize hres : (Except.ok (k, s') : Except Fault (ℤ × State)) = res at hforks
  cases hforks with
  | refused _ =>
    have heq := congrArg Prod.fst (Except.ok.inj hres)
    simp only at heq
    omega
  | @done slot c K s₁ hslot hc hinv =>
    cases hres
    exact ⟨slot, rfl, hinv.duplicated hx.covered hlive hslot⟩
  | @stuck slot c w E K s₁ hslot hc hw' hinv hE hnone =>
    obtain ⟨x, -, hx'⟩ := bind_eq_ok.1 hres.symm
    have heq := congrArg Prod.fst (Except.ok.inj hx')
    simp only at heq
    omega

/-- A process with a read-only and a writable page. -/
def twoPages : State :=
  stateOf [(1, 1)] (tableMem 1 fun w =>
      if w = 510 then 6 * 4096 + 5 else if w = 511 then 7 * 4096 + 7 else 0)
    fun p => if 1 ≤ p ∧ p ≤ 7 then 1 else 0

theorem syscallFork_duplicates_twoPages : ∃ s', syscallFork smallKernel twoPages = .ok (2, s') ∧
    ∃ slot : ℕ, (2 : ℤ) = slot ∧ Duplicated smallKernel twoPages s' slot := by
  have hret : returns (syscallFork smallKernel twoPages) 2 (fun _ => true) = true := by
    decide +kernel
  obtain ⟨s', h, -⟩ := exists_of_returns hret
  have hshares : shares twoPages.mem 1 768 = [6] := by decide +kernel
  exact ⟨s', h, syscallFork_duplicates (exact_of_check (by decide +kernel))
    (stateOf_treeShaped (by decide +kernel)) (by decide)
    (lowConsole_of_check (small_of_check (by decide +kernel)) (by decide +kernel))
    (noWrap_of_check hshares (by decide)) (by decide) h⟩

/-! ### Calls that hand out a page twice -/

/-- A call that succeeds duplicates the address space. -/
def Duplicates (L : Layout) (s : State) : Prop :=
  ∀ (k : ℤ) s', 0 < k → syscallFork L s = .ok (k, s') → ∃ slot : ℕ, k = slot ∧ Duplicated L s s' slot

/-- The page 1 has 255 references, 254 of them by another process; the page 12 is full of ones. -/
def overShared : State :=
  stateOf [(1, 2), (2, 7)]
    (fun p i => if p = 12 then 1
      else if p < 7 then tableMem 2 (fun w =>
        if w = 510 then 1 * 4096 + 5 else if w = 511 then 12 * 4096 + 7 else 0) p i
      else tableMem 7 (fun w => if 256 ≤ w ∧ w < 510 then 1 * 4096 + 5 else 0) p i)
    fun p => if p = 1 then 255 else if 2 ≤ p ∧ p ≤ 12 then 1 else 0

/-- The user may write to the free page 1, at an address below `PROC_START_ADDR`. -/
def lowFree : State :=
  stateOf [(1, 2)]
    (fun p i => if p = 1 then 1 else tableMem 2 (fun w => if w = 255 then 1 * 4096 + 7 else 0) p i)
    fun p => if 2 ≤ p ∧ p ≤ 6 then 1 else 0

/-- The count of the page 1 overflows, and the page is used for the child's copy of the page 12. -/
theorem overShared_not_duplicates : ¬ Duplicates smallKernel overShared := by
  have hret : returns (syscallFork smallKernel overShared) 3 (fun s' =>
      s'.mem 1 0 != overShared.mem 1 0) =
      true := by decide +kernel
  intro hdup
  obtain ⟨s', hres, hne⟩ := exists_of_returns hret
  obtain ⟨slot, -, h⟩ := hdup 3 s' (by decide) hres
  rw [h.mem 1 fun hfree => absurd hfree.2 (by decide), bne_self_eq_false] at hne
  cases hne

/-- The first `k` pages of the loop. -/
def forkSteps (L : Layout) (childPt : ℕ) : ℕ → Vmiter → State → Except Fault (Vmiter × State)
  | 0, it, s => .ok (it, s)
  | k + 1, it, s => do
    assert (it.va < MEMSIZE_VIRTUAL)
    let (ok, s) ← forkPage L childPt it s
    assert (ok = true)
    let it ← it.advance s.mem PAGESIZE
    forkSteps L childPt k it s

theorem forkLoop_steps {pt k fuel : ℕ} {it it' : Vmiter}
    (h : forkSteps L pt k it s = .ok (it', s')) :
    forkLoop L pt (k + fuel) it s = forkLoop L pt fuel it' s' := by
  induction k generalizing it s with
  | zero =>
    cases h
    rw [Nat.zero_add]
  | succ k ih =>
    rw [forkSteps] at h
    obtain ⟨_, hva, h⟩ := bind_eq_ok.1 h
    obtain ⟨⟨ok, s₁⟩, hpage, h⟩ := bind_eq_ok.1 h
    obtain ⟨_, hok, h⟩ := bind_eq_ok.1 h
    obtain ⟨it₁, hadv, h⟩ := bind_eq_ok.1 h
    have hok : ok = true := assert_eq_ok.1 hok
    rw [Nat.add_right_comm, forkLoop, if_pos (assert_eq_ok.1 hva), hpage, ok_bind]
    simp only at hadv ⊢
    rw [if_pos hok, hadv, ok_bind]
    exact ih h

/-- The check of the state `s` in front of the page 256: the parent with root 2 maps nothing above,
    the entries of the child with root 1 are clear there, and its copy of the page 255 is not full
    of ones. -/
def lowFreeCheck (it : Vmiter) (s : State) : Bool :=
  it == vmiterAt s.mem 2 (256 * 4096) && s.root 2 == 1 && treesOk [(1, 2), (2, 1)] s.mem &&
    linksOk s.mem 3 2 && (presentPages s.mem 3 2).all (fun w => w < 256) &&
    (List.range' 256 512).all (fun w =>
      (stop s.mem 1 w).level != 0 || s.mem (stop s.mem 1 w).page (stop s.mem 1 w).idx == 0) &&
    match translate s.mem 1 255 with
    | some (n, _) => s.mem n 0 != 1
    | none => true

/-- The call up to the page 256. -/
def lowFreeSteps : Except Fault (Vmiter × State) := do
  let s := (forkBase lowFree 2 1).alloc 1 0
  let it ← Vmiter.create s.mem (2 * 4096) 0
  forkSteps smallKernel (1 * 4096) 256 it s

theorem lowFree_steps : ∃ it s, lowFreeSteps = .ok (it, s) ∧ lowFreeCheck it s = true := by
  have hcheck : (match lowFreeSteps with
    | .ok (it, s) => lowFreeCheck it s
    | .error _ => false) = true := by decide +kernel
  match hres : lowFreeSteps with
  | .ok (it, s) =>
    rw [hres] at hcheck
    exact ⟨it, s, rfl, hcheck⟩
  | .error _ =>
    rw [hres] at hcheck
    cases hcheck

/-- The page 1 becomes the child's root, so that the child has no copy of it. -/
theorem lowFree_not_duplicates : ¬ Duplicates smallKernel lowFree := by
  obtain ⟨it, s, hsteps, hcheck⟩ := lowFree_steps
  obtain ⟨it₀, hcreate, hsteps⟩ := bind_eq_ok.1 hsteps
  simp only [lowFreeCheck, Bool.and_eq_true] at hcheck
  obtain ⟨⟨⟨⟨⟨⟨hit, hroot⟩, htrees⟩, hlinks⟩, hpresent⟩, hclear⟩, hcopy⟩ := hcheck
  rw [List.all_eq_true] at hpresent hclear
  have hsmall := small_of_check hlinks
  have hloop : forkLoop smallKernel (1 * 4096) (256 + 513) it₀ ((forkBase lowFree 2 1).alloc 1 0) =
      .ok (true, s) := by
    rw [forkLoop_steps hsteps, beq_iff_eq.1 hit]
    refine forkLoop_none (shaped_of_treesOk (i := 1) htrees (by simp))
      (shaped_of_treesOk (i := 2) htrees (by simp)) 512 513 256 rfl (by decide) fun w hge hlt =>
        ⟨?_, fun hl => ?_⟩
    · exact high_of_check hsmall (fun w hw => of_decide_eq_true (hpresent w hw)) (by decide)
        (canonical_of_lt (by omega)) hge
    · have := hclear w (List.mem_range'_1.2 ⟨hge, hlt⟩)
      rw [hl] at this
      simpa using this
  have hres : syscallFork smallKernel lowFree = .ok (2, forked s 2) := by
    have hslot : freeSlot lowFree = some 2 := by decide
    have hc : firstFree smallKernel lowFree.pages = some 1 := by decide +kernel
    rw [syscallFork_eq hslot hc]
    simp only
    refine (congrArg (· >>= _) hcreate).trans ?_
    rw [ok_bind]
    refine (congrArg (· >>= _) hloop).trans ?_
    rfl
  intro hdup
  obtain ⟨slot, hslot, h⟩ := hdup 2 _ (by decide) hres
  obtain rfl : slot = 2 := by omega
  have htr : translate lowFree.mem (lowFree.root lowFree.current) 255 = some (1, 7) := by
    decide +kernel
  obtain ⟨n, q, hchild, -, hpage⟩ := h.present 255 (by decide) 1 7 htr
  have hroot' : (forked s 2).root 2 = 1 := beq_iff_eq.1 hroot
  rw [hroot'] at hchild
  change translate s.mem 1 255 = _ at hchild
  rw [if_pos (by decide)] at hpage
  have hbytes : s.mem n 0 = 1 := congrFun hpage.2.2 0
  rw [hchild] at hcopy
  simp only [hbytes] at hcopy
  cases hcopy

/-- Neither state is duplicated. -/
theorem syscallFork_reuses_page : [overShared, lowFree].Forall fun s =>
    Exact s ∧ TreeShaped s ∧ s.Live s.current ∧ ¬ Duplicates smallKernel s := by
  refine List.forall_iff_forall_mem.2 fun s hs => ?_
  simp only [List.mem_cons, List.not_mem_nil, or_false] at hs
  rcases hs with rfl | rfl
  · exact ⟨exact_of_check (by decide +kernel), stateOf_treeShaped (by decide +kernel), by decide,
      overShared_not_duplicates⟩
  · exact ⟨exact_of_check (by decide +kernel), stateOf_treeShaped (by decide +kernel), by decide,
      lowFree_not_duplicates⟩

end CProj.WeensyOS
