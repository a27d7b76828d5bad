/-
  Runs of the programs that come with the kernel.

  `kernel` starts its programs with empty heaps (`Boots.started`).  So what they rely on holds in every
  run of the system, however the timer interrupts them: the processes see nothing of the kernel
  (`run_refines`), the allocators run for ever (`allocators_run`), the assertions of `p-fork.cc` hold
  (`fork_run`), and the processes of `p-forkexit.cc` leave nothing behind (`forkexit_run`).
-/
import CProj.WeensyOS.TidyPrograms
import CProj.WeensyOS.NullPage

namespace CProj.WeensyOS

variable {L : Layout} {b : Bounds}

/-! ## The start -/

/-- The pages from `top i` on, up to the stack, are not mapped. -/
def Clear (top : ℕ → ℕ) (s : State) : Prop :=
  ∀ i, s.Live i → ∀ v, top i ≤ v → v < STACK_PAGE → translate s.mem (s.root i) v = none

/-- Every process can run. -/
def AllRunnable (s : State) : Prop := ∀ i, s.Live i → (s.ptable i).state = .runnable

/-- A program ends below the page `v`. -/
def EndsBelow (x : ℕ × Option Elf) (v : ℕ) : Prop :=
  256 ≤ v ∧ ∀ elf, x.2 = some elf → ∀ ph ∈ elf.segments, ph.va + ph.memsz ≤ v * PAGESIZE

section
variable {s s' : State} {x : ℕ × Option Elf} {top : ℕ → ℕ}

theorem Booting.setupOne_clear (h : Booting L s) (hslot : Slot s x.1) (hloads : LoadsOne L s x)
    (hend : EndsBelow x (top x.1)) (hclear : Clear top s) (hrun : AllRunnable s)
    (hres : WeensyOS.setupOne L s x = .ok s') :
    Clear top s' ∧ AllRunnable s' ∧ ∀ i, s'.Live i ↔ i = x.1 ∨ s.Live i := by
  obtain ⟨elf, helf, hl⟩ := hloads
  have hloadable : Loadable L s elf := ⟨h.inv.kernel, hl.magic, hl.placed, hl.enough⟩
  obtain ⟨r, f, t, ht, hset⟩ := hloadable.setUp hl.contiguous x.1
  have heq : t = s' := by
    rw [WeensyOS.setupOne, helf] at hres
    exact Except.ok.inj (ht.symm.trans hres)
  subst heq
  have hlive : ∀ i, t.Live i ↔ i = x.1 ∨ s.Live i := by
    intro i
    by_cases hi : i = x.1
    · refine iff_of_true ⟨by rw [hi]; exact hslot.lt, ?_⟩ (.inl hi)
      rw [hi, hset.proc]
      exact ProcState.noConfusion
    · rw [State.Live, hset.others hi]
      exact (or_iff_right hi).symm
  have hold : ∀ i, i ≠ x.1 → t.Live i → s.Live i := fun i hi hl => ((hlive i).1 hl).resolve_left hi
  refine ⟨fun i hi v hlo hhi => ?_, fun i hi => ?_, hlive⟩
  · have hcanon : Canonical v := canonical_of_lt (by rw [STACK_PAGE] at hhi; omega)
    by_cases hix : i = x.1
    · rw [hix] at hlo ⊢
      rw [hset.root]
      refine hset.absent v hcanon (hend.1.trans hlo) fun hmem => ?_
      obtain ⟨y, hy, rfl⟩ := List.mem_map.1 hmem
      rcases List.mem_append.1 hy with hy | hy
      · obtain ⟨ph, hph, hv⟩ := List.mem_flatMap.1 (List.of_mem_zip hy).1
        have hle := hend.2 elf helf ph hph
        obtain ⟨-, hlt⟩ := List.mem_range'_1.1 hv
        simp only [PAGESIZE] at hle hlt
        omega
      · rw [List.mem_singleton.1 hy] at hhi
        exact absurd hhi (lt_irrefl _)
    · have hlive' := hold i hix hi
      have hagree : Agree s.mem t.mem (tables s.mem 3 (s.root i)) :=
        agree_of_used h.inv.covered hlive' fun p hp => hset.built.mem p fun hnew =>
          hp ⟨hset.built.alloc hnew, hnew.1⟩
      rw [State.root, hset.others hix]
      exact hagree.translate.trans (hclear i hlive' v hlo hhi)
  · by_cases hix : i = x.1
    · rw [hix, hset.proc]
    · rw [hset.others hix]
      exact hrun i (hold i hix hi)

/-- With a page more than `process_setup` needs, one is left. -/
theorem Loadable.room {elf : Elf} {pid : ℕ} (h : Loadable L s elf)
    (hcontig : Contiguous L s elf.segments)
    (hmore : (elf.segments.flatMap ElfProgram.pages).length + 7 ≤ (freeList L s.pages).length)
    (hres : processSetup L s pid (some elf) = .ok s') : firstFree L s'.pages ≠ none := by
  obtain ⟨r, t₀, t₁, x, -, -, -, -, -, hset, heq⟩ :=
    processSetup_eq pid h.kernel h.magic h.placed h.enough
  obtain ⟨base, hbase⟩ := h.bases hcontig
  obtain ⟨t₂, x₂, hload, hfill⟩ := h.fill hbase hset x
  have hlev₂ : Levels (crossed false (elf.segments.flatMap ElfProgram.pages)) t₂.mem r := by
    rw [Levels, hfill.agree.stop, hfill.agree.stop]
    exact hset.levels
  obtain ⟨f, F, hF, hroom⟩ := h.stack_room
  have hfree₂ : freeList L t₂.pages = f :: F := by
    rw [hfill.pages, ← hF]
    exact hset.free
  obtain ⟨t₃, pit, hdo, hstack⟩ := (hfill.built.setProc pid { t₂.ptable pid with
      regs := { (t₂.ptable pid).regs with rip := programEntry (some elf) } }).stack
    (x := x₂) hlev₂ hfree₂ hroom
  have hpages : s'.pages = t₃.pages := by
    rw [heq, finishSetup, hload, ok_bind] at hres
    simp only at hdo hres
    cases hk : WeensyOS.kalloc L _ PAGESIZE with
    | mk stackPa u =>
      rw [hk] at hdo
      obtain ⟨pit', hfind, hmap⟩ := bind_eq_ok.1 hdo
      have hfind' : (vmiterAt t₂.mem r x₂).find u.mem (MEMSIZE_VIRTUAL - PAGESIZE) = .ok pit' :=
        hfind
      rw [hk] at hres
      simp only at hres
      rw [hfind', ok_bind, hmap, ok_bind] at hres
      cases hres
      rfl
  have htaken := WeensyOS.taken_le (c := false) (V := elf.segments.flatMap ElfProgram.pages ++ [STACK_PAGE])
  rw [taken_append, List.length_append, List.length_singleton, if_neg Bool.false_ne_true] at htaken
  have hlen : taken (crossed false (elf.segments.flatMap ElfProgram.pages)) [STACK_PAGE] <
      (f :: F).length := by
    rw [← hF, List.length_drop, List.length_drop]
    omega
  rw [hpages, firstFree_eq, hstack.free]
  intro hnone
  have hnil := List.head?_eq_none_iff.1 hnone
  rw [List.drop_eq_nil_iff] at hnil
  omega

/-- The program of a call can be loaded, and a page is left. -/
def LoadsMore (L : Layout) (s : State) (x : ℕ × Option Elf) : Prop :=
  ∃ elf, x.2 = some elf ∧ Loads L s elf ∧
    (elf.segments.flatMap ElfProgram.pages).length + 7 ≤ (freeList L s.pages).length

theorem LoadsMore.loads (h : LoadsMore L s x) : LoadsOne L s x := by
  obtain ⟨elf, helf, hl, -⟩ := h
  exact ⟨elf, helf, hl⟩

theorem LoadsMore.room (h : LoadsMore L s x) (hboot : Booting L s)
    (hres : setupOne L s x = .ok s') : firstFree L s'.pages ≠ none := by
  obtain ⟨elf, helf, hl, hmore⟩ := h
  have hloadable : Loadable L s elf := ⟨hboot.inv.kernel, hl.magic, hl.placed, hl.enough⟩
  rw [setupOne, helf] at hres
  exact hloadable.room hl.contiguous hmore hres

/-- The calls of `process_setup` leave every heap empty. -/
theorem Booting.setups_clear (top : ℕ → ℕ) (ps : List (ℕ × Option Elf)) : ∀ {s}, Booting L s →
    (∀ x ∈ ps, Slot s x.1) → (ps.map Prod.fst).Nodup → Meets (WeensyOS.setupOne L) (LoadsMore L) s ps →
    (∀ x ∈ ps, EndsBelow x (top x.1)) → Clear top s → AllRunnable s →
    run (WeensyOS.setupOne L) s ps = .ok s' →
    Clear top s' ∧ AllRunnable s' ∧ (∀ i, s'.Live i ↔ i ∈ ps.map Prod.fst ∨ s.Live i) ∧
      (ps ≠ [] → firstFree L s'.pages ≠ none) := by
  induction ps with
  | nil =>
    intro s _ _ _ _ _ hclear hrun hres
    cases hres
    exact ⟨hclear, hrun, fun i => (or_iff_right List.not_mem_nil).symm, fun hne => absurd rfl hne⟩
  | cons x ps ih =>
    intro s h hslots hnodup hloads hend hclear hrun hres
    rw [List.map_cons, List.nodup_cons] at hnodup
    have hslot := hslots x List.mem_cons_self
    obtain ⟨t, ht, hboot, -, hothers⟩ := h.setupOne hslot hloads.1.loads
    obtain ⟨hclear', hrun', hlive⟩ := h.setupOne_clear hslot hloads.1.loads
      (hend x List.mem_cons_self) hclear hrun ht
    have hne : ∀ y ∈ ps, y.1 ≠ x.1 := fun y hy heq => hnodup.1 (List.mem_map.2 ⟨y, hy, heq⟩)
    obtain ⟨u, hu, hrest⟩ := run_cons.1 hres
    cases ht.symm.trans hu
    obtain ⟨h1, h2, h3, h4⟩ := ih hboot (fun y hy => by
      obtain ⟨h1, h2, h3, h4⟩ := hslots y (List.mem_cons_of_mem _ hy)
      exact ⟨h1, h2, by rw [hothers _ (hne y hy), h3], by rw [hothers _ (hne y hy), h4]⟩) hnodup.2
        (hloads.2 t ht) (fun y hy => hend y (List.mem_cons_of_mem _ hy)) hclear' hrun' hrest
    refine ⟨h1, h2, fun i => ?_, fun _ => ?_⟩
    · rw [h3, hlive, List.map_cons, List.mem_cons, ← or_assoc, or_comm (a := i ∈ ps.map Prod.fst)]
    · by_cases hps : ps = []
      · subst hps
        cases hrest
        exact hloads.1.room h ht
      · exact h4 hps

/-- `kernel` has set up its programs, with empty heaps. -/
structure Started (L : Layout) (pids : List ℕ) (top : ℕ → ℕ) (s : State) : Prop where
  boot : Boot L s
  clear : Clear top s
  runnable : AllRunnable s
  live : ∀ i, s.Live i ↔ i ∈ pids
  room : firstFree L s.pages ≠ none

end

/-- A program is linked with the addresses `b`. -/
structure Linked (x : ℕ × Option Elf) (b : Bounds) : Prop where
  fits : b.Fits
  ends : ∀ elf, x.2 = some elf → ∀ ph ∈ elf.segments, ph.va + ph.memsz ≤ b.end_

theorem Linked.endsBelow {x : ℕ × Option Elf} (h : Linked x b) : EndsBelow x (b.dataTop / PAGESIZE) := by
  obtain ⟨h1, h2, -, h4⟩ := h.fits.base
  refine ⟨h2, fun elf helf ph hph => ?_⟩
  have := h.ends elf helf ph hph
  rw [PAGESIZE] at *
  omega

/-- `kernel(command)` sets up the programs `ps`, which are linked with the addresses `bs`. -/
structure Boots (L : Layout) (ramimages : String → Option Elf) (command : Option String)
    (ps : List (ℕ × Option Elf)) (bs : ℕ → Bounds) (s : State) : Prop where
  cleared : Cleared s
  programs : bootPrograms ramimages command = .ok ps
  loads : ∀ s₁, kernelMemory L s = .ok s₁ → Meets (setupOne L) (LoadsMore L) (initPtable s₁) ps
  linked : ∀ x ∈ ps, Linked x (bs x.1)

section
variable {ramimages : String → Option Elf} {command : Option String} {ps : List (ℕ × Option Elf)}
  {bs : ℕ → Bounds} {s : State}

theorem Boots.started (h : Boots L ramimages command ps bs s) : ∃ s₀,
    kernel L ramimages command s = .ok s₀ ∧
      Started L (ps.map Prod.fst) (fun i => (bs i).dataTop / PAGESIZE) s₀ := by
  have hmem := kernelMemory_eq L s
  obtain ⟨hboot, hslots⟩ := h.cleared.booting hmem
  obtain ⟨hnodup, hone, hrange⟩ := bootPrograms_pids h.programs
  obtain ⟨s₀, hkernel, hboot'⟩ := kernel_boot ramimages command h.cleared h.programs fun s₁ hs₁ =>
    (h.loads s₁ hs₁).mono fun _ _ => LoadsMore.loads
  refine ⟨s₀, hkernel, ?_⟩
  rw [kernel_eq, hmem, ok_bind, h.programs, ok_bind] at hkernel
  obtain ⟨s₁, hrun, hproc⟩ := bind_eq_ok.1 hkernel
  obtain ⟨rfl, -⟩ := runProc_ok hproc
  -- at first there is no process
  have hnone : ∀ i, ¬ (initPtable { s with mem := kernelMem L s.mem kernelEntries }).Live i := by
    intro i hi
    by_cases h0 : i = 0
    · rw [h0] at hi
      exact hi.2 hboot.inv.slot0
    · exact hi.2 (hslots i (Nat.pos_of_ne_zero h0) hi.1).free
  obtain ⟨hclear, hrunnable, hlive, hroom⟩ := hboot.setups_clear
    (fun i => (bs i).dataTop / PAGESIZE) ps (fun x hx => by
      obtain ⟨h1, h2⟩ := hrange x.1 (List.mem_map_of_mem hx)
      exact hslots x.1 h1 h2) hnodup (h.loads _ hmem) (fun x hx => (h.linked x hx).endsBelow)
      (fun i hi => absurd hi (hnone i)) (fun i hi => absurd hi (hnone i)) hrun
  refine ⟨hboot', hclear, hrunnable, fun i => (hlive i).trans (or_iff_left (hnone i)), hroom ?_⟩
  rintro rfl
  exact List.not_mem_nil hone

theorem Boots.fits (h : Boots L ramimages command ps bs s) {i : ℕ} (hi : i ∈ ps.map Prod.fst) :
    (bs i).Fits := by
  obtain ⟨x, hx, rfl⟩ := List.mem_map.1 hi
  exact (h.linked x hx).fits

end

section
variable {σ : Type} {P : Program σ} {H : Heap σ} {s₀ : State} {pids : List ℕ} {top : ℕ → ℕ}
  {locals : ℕ → σ} {x : System σ}

/-- The system that `kernel` starts. -/
theorem Started.tended (h : Started L pids top s₀)
    (hlocals : ∀ i ∈ pids, H.ok (locals i) ∧ H.base (locals i) = top i ∧ H.top (locals i) = top i) :
    Tended L H ⟨s₀, locals⟩ := by
  refine ⟨h.boot.serving (h.runnable _ ?_) h.room, fun i hi => ⟨h.runnable i hi, ?_, ?_⟩⟩
  · exact h.boot.good.running h.boot.spinning
  · exact (hlocals i ((h.live i).1 hi)).1
  · obtain ⟨-, hbase, htop⟩ := hlocals i ((h.live i).1 hi)
    refine ⟨fun v hlo hhi => ?_, fun v hlo hhi => h.clear i hi v (htop ▸ hlo) hhi⟩
    exact absurd (lt_of_lt_of_eq hhi htop) (not_lt.2 (hbase ▸ hlo))

/-- As long as there is a process, the scheduler finds one. -/
theorem Tended.not_spinning {i : ℕ} (h : Tended L H x) (hi : x.kernel.Live i) :
    x.kernel.spinning = false := by
  refine Bool.eq_false_iff.2 fun hspin => ?_
  exact h.serving.idle hspin i hi.1 (h.minds i hi).runs

end

/-- One program of two pages, whatever its name. -/
theorem resetState_boots (name : String) : Boots smallKernel twoPageImages (some name)
    [(1, twoPageImages name)] (fun _ => ⟨0x102000, MEMSIZE_VIRTUAL⟩) resetState := by
  have hload := twoPageElf_loadable (Or.inl rfl)
  have hcontig : Contiguous smallKernel beforeSetup (twoPageElf 0x100000).segments := by
    decide +kernel
  refine ⟨resetState_cleared, rfl, fun s hs => ?_, fun x hx => ?_⟩
  · rw [kernelMemory_eq] at hs
    cases hs
    exact ⟨⟨_, rfl, ⟨hload.magic, hload.placed, hload.enough, hcontig⟩, by decide +kernel⟩,
      fun _ _ => trivial⟩
  · rw [List.mem_singleton.1 hx]
    refine ⟨⟨by decide, by decide, by decide⟩, fun elf helf ph hph => ?_⟩
    cases helf
    revert ph
    decide

/-- **The kernel implements processes.**  Every run of programs that keep to their heaps, from the state
    in which `kernel` starts them, is a run of processes that know nothing of a kernel: `getpid` gives
    a process its own name, `fork` makes one more, and `exit` ends one; the timer is not seen. -/
theorem run_refines {σ : Type} {P : Program σ} {H : Heap σ} {ramimages : String → Option Elf}
    {command : Option String} {ps : List (ℕ × Option Elf)} {bs : ℕ → Bounds} {s : State}
    {locals : ℕ → σ} (hP : Tidy P H) (hboots : Boots L ramimages command ps bs s)
    (hlocals : ∀ i ∈ ps.map Prod.fst, H.ok (locals i) ∧
      H.base (locals i) = (bs i).dataTop / PAGESIZE ∧ H.top (locals i) = (bs i).dataTop / PAGESIZE) :
    ∃ s₀, kernel L ramimages command s = .ok s₀ ∧ ∀ (ticks : List Tick) y,
      run (System.step L P) ⟨s₀, locals⟩ ticks = .ok y →
        Relation.ReflTransGen (Processes.Step P) ⟨{i | i ∈ ps.map Prod.fst}, locals⟩ y.processes := by
  obtain ⟨s₀, hkernel, hstart⟩ := hboots.started
  refine ⟨s₀, hkernel, fun ticks y hrun => ?_⟩
  have hfirst : System.processes ⟨s₀, locals⟩ = ⟨{i | i ∈ ps.map Prod.fst}, locals⟩ :=
    Processes.ext (Set.ext fun i => hstart.live i) rfl
  rw [← hfirst]
  refine (run_inv (A := fun _ => True) (C := fun _ _ => True)
    (fun x => Tended L H x ∧ Relation.ReflTransGen (Processes.Step P) (System.processes ⟨s₀, locals⟩)
      x.processes) (fun x t x' ⟨h, hreach⟩ _ _ hstep => ?_)
    ⟨hstart.tended hlocals, .refl⟩ (fun _ _ => trivial) meets_true hrun).2
  have hspin : x.kernel.spinning = false := by
    refine Bool.eq_false_iff.2 fun hspin => ?_
    rw [step_of_spinning hspin] at hstep
    cases hstep
  obtain ⟨x₁, hx₁, ht, hproc⟩ := h.step hP hspin t (request_ne_panic_of_step hstep)
  cases hstep.symm.trans hx₁
  exact ⟨ht, hreach.tail hproc⟩

theorem run_refines_fork : ∃ s₀,
    kernel smallKernel twoPageImages (some "fork") resetState = .ok s₀ ∧ ∀ (ticks : List Tick) y,
      run (System.step smallKernel Fork.program)
        ⟨s₀, fun _ => (⟨0x102000, MEMSIZE_VIRTUAL⟩, .fork1)⟩ ticks = .ok y →
        Relation.ReflTransGen (Processes.Step Fork.program)
          ⟨{i | i ∈ [(1, twoPageImages "fork")].map Prod.fst},
            fun _ => (⟨0x102000, MEMSIZE_VIRTUAL⟩, .fork1)⟩ y.processes :=
  run_refines Fork.tidy (resetState_boots "fork")
    fun _ hi => ⟨(resetState_boots "fork").fits hi, rfl, rfl⟩

/-! ## The allocators -/

namespace Allocator

/-- The heap of the process in the slot `i` is its own: each page is there, with the name of the
    process in its first word. -/
def Owns (s : State) (i : ℕ) (x : Bounds × Pc) : Prop :=
  ∀ v, vars x.2 = some v → ∀ u, x.1.dataTop / PAGESIZE ≤ u → u < v.heap_top / PAGESIZE →
    ∃ n q, translate s.mem (s.root i) u = some (n, q) ∧ pwu q = 7 ∧ n ≠ CONSOLE_PAGE ∧ s.mem n 0 = i

theorem owns_of {s : State} {i : ℕ} {pc : Pc} (h : HeapMapped heap (b, pc) s.mem (s.root i))
    (hnamed : Named i pc) (hi : i < NPROC) : Owns s i (b, pc) := by
  intro v hv u hlo hhi
  have hle : v.heap_top / PAGESIZE ≤ top b pc := by
    cases pc <;> cases hv <;> first | exact le_rfl | exact Nat.le_succ _
  obtain ⟨n, q, htr, hq, hcon, hword⟩ := h.mapped u hlo (lt_of_lt_of_le hhi hle)
  refine ⟨n, q, htr, hq, hcon, ?_⟩
  have hp : (v.p % 256).toNat = i := by
    rw [hnamed v hv]
    rw [NPROC] at hi
    omega
  change Word pc u _ at hword
  cases pc <;> cases hv
  · exact hword.trans hp
  · rw [Word, if_neg (ne_of_lt hhi)] at hword
    exact hword.trans hp
  · exact hword.trans hp
  · exact hword.trans hp
  · exact hword.trans hp

theorem request_ne (pc : Pc) : request pc ≠ .fork ∧ request pc ≠ .exit := by
  cases pc <;> exact ⟨Request.noConfusion, Request.noConfusion⟩

/-- What a step keeps, besides the heaps. -/
theorem step_named {x y : Processes (Bounds × Pc)} {bs : ℕ → Bounds}
    (h : x.All fun i l => l.1 = bs i ∧ Named i l.2) (hstep : Processes.Step program x y) :
    (y.All fun i l => l.1 = bs i ∧ Named i l.2) ∧ y.live = x.live := by
  refine ⟨h.step (fun c l v hl hget _ => ⟨hl.1, hl.2.resume hget⟩)
    (fun c l k _ hreq => absurd hreq (request_ne l.2).1) hstep, ?_⟩
  cases hstep with
  | idle => rfl
  | resume _ _ _ _ => rfl
  | fork _ hreq _ _ => exact absurd hreq (request_ne _).1
  | exit _ hreq => exact absurd hreq (request_ne _).2

end Allocator

/-- **The allocators run for ever.**  When `kernel` has started programs that are all `p-allocator.cc`,
    every sequence of turns and timer interrupts leads to a state in which each of them can run: none
    has faulted, and each has the pages of its heap to itself. -/
theorem allocators_run {ramimages : String → Option Elf} {command : Option String}
    {ps : List (ℕ × Option Elf)} {bs : ℕ → Bounds} {s : State}
    (hboots : Boots L ramimages command ps bs s) :
    ∃ s₀, kernel L ramimages command s = .ok s₀ ∧ ∀ ticks : List Tick, ∃ y,
      run (System.step L Allocator.program) ⟨s₀, fun i => (bs i, .start)⟩ ticks = .ok y ∧
        ∀ i ∈ ps.map Prod.fst, (y.kernel.ptable i).state = .runnable ∧ (y.locals i).1 = bs i ∧
          Allocator.Owns y.kernel i (y.locals i) := by
  obtain ⟨s₀, hkernel, hstart⟩ := hboots.started
  refine ⟨s₀, hkernel, fun ticks => ?_⟩
  have htended : Tended L Allocator.heap ⟨s₀, fun i => (bs i, .start)⟩ :=
    hstart.tended fun i hi => ⟨hboots.fits hi, rfl, rfl⟩
  have hone := (bootPrograms_pids hboots.programs).2.1
  have hstep : ∀ x (t : Tick), (Tended L Allocator.heap x ∧
      (x.processes.All fun i l => l.1 = bs i ∧ Allocator.Named i l.2) ∧
        x.processes.live = {i | i ∈ ps.map Prod.fst}) → True → True →
      ∃ y, System.step L Allocator.program x t = .ok y ∧ Tended L Allocator.heap y ∧
        (y.processes.All fun i l => l.1 = bs i ∧ Allocator.Named i l.2) ∧
          y.processes.live = {i | i ∈ ps.map Prod.fst} := by
    intro x t ⟨h, hnamed, hlive⟩ _ _
    have hspin := h.not_spinning ((Set.ext_iff.1 hlive 1).2 hone)
    have hpanic := Allocator.request_ne_panic (h.minds _ (h.current hspin)).ok
    obtain ⟨y, hy, ht, hproc⟩ := h.step Allocator.tidy hspin t (.inr hpanic)
    obtain ⟨hnamed', hlive'⟩ := Allocator.step_named hnamed hproc
    exact ⟨y, hy, ht, hnamed', hlive'.trans hlive⟩
  obtain ⟨y, hy, ht, hnamed, hlive⟩ := run_ok _ hstep
    ⟨htended, fun i _ => ⟨rfl, fun v hv => by cases hv⟩, Set.ext fun i => hstart.live i⟩
    (fun t (_ : t ∈ ticks) => trivial) meets_true
  refine ⟨y, hy, fun i hi => ?_⟩
  have hi : y.kernel.Live i := (Set.ext_iff.1 hlive i).2 hi
  have hm := ht.minds i hi
  have hn := hnamed i hi
  exact ⟨hm.runs, hn.1, Allocator.owns_of hm.heap hn.2 hi.1⟩

theorem allocators_run_one : ∃ s₀, kernel smallKernel twoPageImages (some "allocator") resetState = .ok s₀ ∧
    ∀ ticks : List Tick, ∃ y, run (System.step smallKernel Allocator.program)
      ⟨s₀, fun _ => (⟨0x102000, MEMSIZE_VIRTUAL⟩, .start)⟩ ticks = .ok y ∧
        ∀ i ∈ [(1, twoPageImages "allocator")].map Prod.fst, (y.kernel.ptable i).state = .runnable ∧
          (y.locals i).1 = ⟨0x102000, MEMSIZE_VIRTUAL⟩ ∧ Allocator.Owns y.kernel i (y.locals i) :=
  allocators_run (resetState_boots "allocator")

/-! ## Forks -/

namespace Fork

/-- The heap of a process that allocates is its own. -/
def Owns (s : State) (i : ℕ) (x : Bounds × Pc) : Prop :=
  ∀ pc, x.2 = .run pc → Allocator.Owns s i (x.1, pc)

/-- What every step keeps. -/
structure Safe (L : Layout) (b : Bounds) (x : System (Bounds × Pc)) : Prop where
  tended : Tended L heap x
  sane : AllSane x.processes
  bounds : x.processes.All fun _ l => l.1 = b

variable {x y : System (Bounds × Pc)} {t : Tick}

/-- Only a `fork` that has failed stops the system. -/
theorem Safe.step (h : Safe L b x) (hgo : (x.locals x.kernel.current).2 ≠ .noFork ∨
      ∃ regs, t = .interrupt regs) :
    ∃ y, System.step L program x t = .ok y ∧ Safe L b y := by
  have hspin := h.tended.not_spinning h.sane.first
  have hlive := h.tended.current hspin
  have hpanic : (∃ regs, t = .interrupt regs) ∨ program.request (x.locals x.kernel.current) ≠ .panic := by
    rcases hgo with hgo | hint
    · refine .inr fun hreq => ?_
      rcases request_panic (h.tended.minds _ hlive).ok hreq with hpc | hpc
      · exact hgo hpc
      · have hsane := h.sane.sane _ hlive
        change Sane _ _ (x.locals x.kernel.current).2 at hsane
        rw [hpc] at hsane
        exact hsane
    · exact .inl hint
  obtain ⟨y, hy, ht, hproc⟩ := h.tended.step tidy hspin t hpanic
  exact ⟨y, hy, ht, h.sane.step hproc,
    h.bounds.step (fun _ _ _ hl _ _ => hl) (fun _ _ _ hl _ => ⟨hl, fun _ => hl⟩) hproc⟩

theorem Safe.of_step (h : Safe L b x) (hstep : System.step L program x t = .ok y) : Safe L b y := by
  have hgo : (x.locals x.kernel.current).2 ≠ .noFork ∨ ∃ regs, t = .interrupt regs := by
    refine (request_ne_panic_of_step hstep).symm.imp_left fun hreq hpc => hreq ?_
    change request (x.locals x.kernel.current).2 = .panic
    rw [hpc]
    rfl
  obtain ⟨y', hy, hsafe⟩ := h.step hgo
  cases hstep.symm.trans hy
  exact hsafe

end Fork

/-- **The assertions of `p-fork.cc` on the results of `fork` hold**, whatever the timer does; no process
    ever faults, each that allocates has its heap to itself, and the system only stops where an
    assertion finds that a call of `fork` has failed. -/
theorem fork_run {ramimages : String → Option Elf} {command : Option String} {image : Option Elf}
    {bs : ℕ → Bounds} {s : State} (hboots : Boots L ramimages command [(1, image)] bs s) :
    ∃ s₀, kernel L ramimages command s = .ok s₀ ∧ ∀ (ticks : List Tick) y,
      run (System.step L Fork.program) ⟨s₀, fun _ => (bs 1, .fork1)⟩ ticks = .ok y →
        (∀ i, y.kernel.Live i → (y.kernel.ptable i).state = .runnable ∧ (y.locals i).2 ≠ .confused ∧
          (y.locals i).1 = bs 1 ∧ Fork.Owns y.kernel i (y.locals i)) ∧
        ∀ t, (∃ z, System.step L Fork.program y t = .ok z) ∨
          (y.locals y.kernel.current).2 = .noFork ∧ ∃ regs, t = .proceed regs := by
  obtain ⟨s₀, hkernel, hstart⟩ := hboots.started
  refine ⟨s₀, hkernel, fun ticks y hrun => ?_⟩
  have hone : ∀ i, s₀.Live i ↔ i = 1 := fun i => (hstart.live i).trans List.mem_singleton
  have hsafe : Fork.Safe L (bs 1) ⟨s₀, fun _ => (bs 1, .fork1)⟩ := by
    refine ⟨hstart.tended fun i hi => ?_, ⟨(hone 1).2 rfl, fun i hi => (hone i).1 hi⟩, fun _ _ => rfl⟩
    obtain rfl := List.mem_singleton.1 hi
    exact ⟨hboots.fits hi, rfl, rfl⟩
  have hsafe' := run_inv (A := fun _ => True) (C := fun _ _ => True)
    (Fork.Safe L (bs 1)) (fun x t x' h _ _ hstep => h.of_step hstep) hsafe (fun _ _ => trivial)
    meets_true hrun
  refine ⟨fun i hi => ?_, fun t => ?_⟩
  · have hm := hsafe'.tended.minds i hi
    have hsane := hsafe'.sane.sane i hi
    refine ⟨hm.runs, fun hpc => ?_, hsafe'.bounds i hi, fun pc hpc => ?_⟩
    · change Fork.Sane _ _ (y.locals i).2 at hsane
      rw [hpc] at hsane
      exact hsane
    · change Fork.Sane _ _ (y.locals i).2 at hsane
      rw [hpc] at hsane
      have hheap := hm.heap
      obtain ⟨b', pc', hl⟩ : ∃ b' pc', y.locals i = (b', pc') := ⟨_, _, rfl⟩
      rw [hl] at hpc hheap ⊢
      cases hpc
      exact Allocator.owns_of ⟨hheap.mapped, hheap.unmapped⟩ hsane hi.1
  · by_cases hpc : (y.locals y.kernel.current).2 = .noFork
    · cases t with
      | proceed regs => exact .inr ⟨hpc, regs, rfl⟩
      | interrupt regs =>
        obtain ⟨z, hz, -⟩ := hsafe'.step (t := .interrupt regs) (.inr ⟨regs, rfl⟩)
        exact .inl ⟨z, hz⟩
    · obtain ⟨z, hz, -⟩ := hsafe'.step (t := t) (.inl hpc)
      exact .inl ⟨z, hz⟩

theorem fork_run_one : ∃ s₀, kernel smallKernel twoPageImages (some "fork") resetState = .ok s₀ ∧
    ∀ (ticks : List Tick) y, run (System.step smallKernel Fork.program)
      ⟨s₀, fun _ => (⟨0x102000, MEMSIZE_VIRTUAL⟩, .fork1)⟩ ticks = .ok y →
        (∀ i, y.kernel.Live i → (y.kernel.ptable i).state = .runnable ∧ (y.locals i).2 ≠ .confused ∧
          (y.locals i).1 = ⟨0x102000, MEMSIZE_VIRTUAL⟩ ∧ Fork.Owns y.kernel i (y.locals i)) ∧
        ∀ t, (∃ z, System.step smallKernel Fork.program y t = .ok z) ∨
          (y.locals y.kernel.current).2 = .noFork ∧ ∃ regs, t = .proceed regs :=
  fork_run (resetState_boots "fork")

/-! ## Forks and exits -/

/-- Where there is no process, only the viewer has a page. -/
theorem Serving.all_free {s : State} (h : Serving L s) (hnone : ∀ i, ¬ s.Live i) {p : ℕ} (hp : p < NPAGES)
    (hused : s.pages p ≠ 0) : p ∈ s.viewerPages := by
  have hcount := h.good.inv.counts p hp
  have hpos : (s.pages p).toNat ≠ 0 := fun h0 => hused (UInt8.toNat_inj.1 h0)
  have hmem : p ∈ s.uses := List.count_pos_iff.1 (by omega)
  exact (mem_uses.1 hmem).resolve_right fun ⟨i, hi, _⟩ => hnone i hi

/-- **The processes of `p-forkexit.cc` come and go.**  However the timer interrupts them, no process
    faults and no call fails in the kernel; the system goes on until all processes have exited, and
    then all memory is free again, but for the page of the viewer. -/
theorem forkexit_run {ramimages : String → Option Elf} {command : Option String} {image : Option Elf}
    {bs : ℕ → Bounds} {s : State} (hboots : Boots L ramimages command [(1, image)] bs s) :
    ∃ s₀, kernel L ramimages command s = .ok s₀ ∧ ∀ ticks : List Tick,
      (∃ y, run (System.step L ForkExit.program) ⟨s₀, fun _ => (bs 1, ForkExit.start)⟩ ticks = .ok y ∧
        ∀ i, y.kernel.Live i → (y.kernel.ptable i).state = .runnable) ∨
      run (System.step L ForkExit.program) ⟨s₀, fun _ => (bs 1, ForkExit.start)⟩ ticks =
          .error .spinning ∧
        ∃ js y, js <+: ticks ∧
          run (System.step L ForkExit.program) ⟨s₀, fun _ => (bs 1, ForkExit.start)⟩ js = .ok y ∧
          (∀ i, ¬ y.kernel.Live i) ∧
          ∀ p < NPAGES, y.kernel.pages p ≠ 0 → p ∈ y.kernel.viewerPages := by
  obtain ⟨s₀, hkernel, hstart⟩ := hboots.started
  refine ⟨s₀, hkernel, fun ticks => ?_⟩
  have htended : Tended L ForkExit.heap ⟨s₀, fun _ => (bs 1, ForkExit.start)⟩ := by
    refine hstart.tended fun i hi => ?_
    obtain rfl := List.mem_singleton.1 hi
    have hpc := ForkExit.spawnLoop_ok (hboots.fits hi) ⟨false, 0⟩
    rw [← ForkExit.start] at hpc
    generalize ForkExit.start = pc at hpc ⊢
    exact hpc
  have hok : ∀ x (t : Tick), Tended L ForkExit.heap x → ¬ x.kernel.spinning = true → True → True →
      ∃ y, System.step L ForkExit.program x t = .ok y ∧ Tended L ForkExit.heap y := by
    intro x t h hspin _ _
    have hspin := Bool.eq_false_iff.2 hspin
    have hpanic := ForkExit.request_ne_panic (h.minds _ (h.current hspin)).ok
    obtain ⟨y, hy, ht, -⟩ := h.step ForkExit.tidy hspin t (.inr hpanic)
    exact ⟨y, hy, ht⟩
  rcases run_stops (Tended L ForkExit.heap) (fun x => x.kernel.spinning = true) hok
    (fun x t hspin => step_of_spinning hspin) htended (fun t (_ : t ∈ ticks) => trivial) meets_true with
    ⟨y, hy, ht⟩ | ⟨herr, js, y, hjs, hy, ht, hspin⟩
  · exact .inl ⟨y, hy, fun i hi => (ht.minds i hi).runs⟩
  · have hnone : ∀ i, ¬ y.kernel.Live i := fun i hi => by
      rw [ht.not_spinning hi] at hspin
      cases hspin
    exact .inr ⟨herr, js, y, hjs, hy, hnone, fun p hp => ht.serving.all_free hnone hp⟩

theorem forkexit_run_one : ∃ s₀, kernel smallKernel twoPageImages (some "forkexit") resetState = .ok s₀ ∧
    ∀ ticks : List Tick,
      (∃ y, run (System.step smallKernel ForkExit.program)
          ⟨s₀, fun _ => (⟨0x102000, MEMSIZE_VIRTUAL⟩, ForkExit.start)⟩ ticks = .ok y ∧
        ∀ i, y.kernel.Live i → (y.kernel.ptable i).state = .runnable) ∨
      run (System.step smallKernel ForkExit.program)
          ⟨s₀, fun _ => (⟨0x102000, MEMSIZE_VIRTUAL⟩, ForkExit.start)⟩ ticks = .error .spinning ∧
        ∃ js y, js <+: ticks ∧ run (System.step smallKernel ForkExit.program)
          ⟨s₀, fun _ => (⟨0x102000, MEMSIZE_VIRTUAL⟩, ForkExit.start)⟩ js = .ok y ∧
          (∀ i, ¬ y.kernel.Live i) ∧
          ∀ p < NPAGES, y.kernel.pages p ≠ 0 → p ∈ y.kernel.viewerPages :=
  forkexit_run (resetState_boots "forkexit")

end CProj.WeensyOS
