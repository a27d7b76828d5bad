/-
  `kernel` boots into a state in which the invariant holds.

  `process_setup` keeps the invariant (`Inv.setUp`): what it has allocated is what the new process
  refers to (`SetUp.owned`).  So the states in which `kernel` runs the first process are those that
  the runs of the development begin with (`kernel_boot`).
-/
import CProj.WeensyOS.ProcessSetup
import CProj.WeensyOS.AddressSpace

namespace CProj.WeensyOS

variable {L : Layout} {d : ℕ → ℕ} {s s' : State} {r f v p pid : ℕ} {elf : Elf}

/-! ## What a new process refers to -/

theorem WellPlaced.userMap_range (hplaced : WellPlaced elf.segments) {x : ℕ × ℕ}
    (hx : x ∈ userMap L s elf.segments f) :
    256 ≤ x.1 ∧ x.1 < 768 ∧ IsUser (userFlags elf.segments x.1) := by
  rcases List.mem_append.1 hx with hx | hx
  · obtain ⟨ph, hph, hv⟩ := List.mem_flatMap.1 (List.of_mem_zip hx).1
    obtain ⟨hlow, hhigh⟩ := hplaced.page_range hph hv
    rw [userFlags, if_neg (by rw [STACK_PAGE]; omega), hplaced.pageFlags hph hv]
    exact ⟨hlow, by omega, (segmentFlags_user ph).1⟩
  · rw [List.mem_singleton.1 hx]
    refine ⟨show 256 ≤ STACK_PAGE by decide, show STACK_PAGE < 768 by decide, ?_⟩
    rw [userFlags, if_pos rfl]
    decide

section
variable (h : SetUp L s pid elf r f s') (hplaced : WellPlaced elf.segments)
include h hplaced

theorem SetUp.userPage (hlow : 256 ≤ v) (hhigh : v < 768) :
    userPage s'.mem r v = some p ↔ (v, p) ∈ userMap L s elf.segments f := by
  rw [userPage_eq_some]
  constructor
  · rintro ⟨q, htr, -⟩
    by_contra hnot
    rw [h.absent v (canonical_of_lt (by omega)) hlow fun hmem => ?_] at htr
    · cases htr
    · obtain ⟨x, hx, rfl⟩ := List.mem_map.1 hmem
      obtain ⟨⟨q', htr', -⟩, -, -⟩ := h.placed x hx
      rw [htr'] at htr
      cases htr
      exact hnot hx
  · intro hx
    obtain ⟨⟨q, htr, hq⟩, -, -⟩ := h.placed _ hx
    refine ⟨q, htr, ?_⟩
    rw [← isUser_pwu, hq]
    exact (hplaced.userMap_range hx).2.2

theorem SetUp.mem_procPages :
    p ∈ procPages s'.mem r ↔ p ∈ (userMap L s elf.segments f).map Prod.snd := by
  rw [WeensyOS.mem_procPages, List.mem_map]
  constructor
  · rintro ⟨v, hlow, hhigh, hpage⟩
    exact ⟨(v, p), (h.userPage hplaced hlow hhigh).1 hpage, rfl⟩
  · rintro ⟨x, hx, rfl⟩
    obtain ⟨hlow, hhigh, -⟩ := hplaced.userMap_range hx
    exact ⟨x.1, hlow, hhigh, (h.userPage hplaced hlow hhigh).2 hx⟩

/-- **A new process refers to the pages that have been allocated**, once to each of them. -/
theorem SetUp.owned : (owned s'.mem r).Nodup ∧ ∀ p, p ∈ owned s'.mem r ↔ New s s' p := by
  constructor
  · have hpages : (procPages s'.mem r).Nodup := by
      unfold procPages userPages
      refine List.nodup_flatMap.2 ⟨fun v _ => ?_,
        List.Pairwise.imp_of_mem (fun hv hw hne p hp hp' => hne ?_)
        List.nodup_range'⟩
      · cases WeensyOS.userPage s'.mem r v with
        | none => exact List.nodup_nil
        | some p => exact List.nodup_singleton p
      · obtain ⟨h1, h2⟩ := List.mem_range'_1.1 hv
        obtain ⟨h3, h4⟩ := List.mem_range'_1.1 hw
        have hv' := (h.userPage hplaced h1 h2).1 (Option.mem_toList.1 hp)
        have hw' := (h.userPage hplaced h3 h4).1 (Option.mem_toList.1 hp')
        exact congrArg Prod.fst (List.inj_on_of_nodup_map h.inj hv' hw' rfl)
    have htables : (subtables s'.mem 3 r ++ [r]).Nodup :=
      (List.perm_append_singleton r (subtables s'.mem 3 r)).nodup_iff.2 h.built.shaped.tree
    rw [WeensyOS.owned, List.append_assoc]
    refine List.nodup_append.2 ⟨hpages, htables, fun p hp p' hp' heq => ?_⟩
    subst heq
    obtain ⟨x, hx, rfl⟩ := List.mem_map.1 ((h.mem_procPages hplaced).1 hp)
    refine (h.placed x hx).2.2 ?_
    rw [tables, List.mem_cons]
    exact (List.mem_append.1 hp').symm.imp_left List.mem_singleton.1
  · intro p
    rw [mem_owned, h.mem_procPages hplaced]
    constructor
    · rintro (hp | hp)
      · obtain ⟨x, hx, rfl⟩ := List.mem_map.1 hp
        exact (h.placed x hx).2.1
      · exact h.built.tables p hp
    · intro hp
      exact (h.new p hp).symm

theorem SetUp.owned_count (p : ℕ) :
    (WeensyOS.owned s'.mem r).count p + (s.pages p).toNat = (s'.pages p).toNat := by
  obtain ⟨hnodup, hmem⟩ := h.owned hplaced
  by_cases hp : New s s' p
  · rw [List.count_eq_one_of_mem hnodup ((hmem p).2 hp), hp.1, hp.2]
    rfl
  · rw [List.count_eq_zero_of_not_mem fun hp' => hp ((hmem p).1 hp')]
    rcases h.built.pages p with heq | hnew
    · rw [heq, Nat.zero_add]
    · exact absurd hnew.1 hp

end

theorem SetUp.procOk (h : SetUp L s pid elf r f s') (hplaced : WellPlaced elf.segments) :
    ProcOk L s'.mem r := by
  obtain ⟨hnodup, hmem⟩ := h.owned hplaced
  refine ⟨h.built.shaped, h.built.full, h.built.small, hnodup,
    fun p hp => h.built.alloc ((hmem p).1 hp),
    h.copied, fun v hv hge => h.absent v hv (by omega) fun hx => ?_⟩
  obtain ⟨x, hmap, rfl⟩ := List.mem_map.1 hx
  have hlt := (hplaced.userMap_range hmap).2.1
  omega

/-! ## `process_setup` and the invariant -/

theorem SetUp.proc (h : SetUp L s pid elf r f s') : s'.ptable pid =
    ⟨r * 4096, (s.ptable pid).pid, .runnable, { initRegs with rip := elf.entry, rsp := MEMSIZE_VIRTUAL }⟩ := by
  rw [h.ptable, Function.update_self]

theorem SetUp.others (h : SetUp L s pid elf r f s') {i : ℕ} (hi : i ≠ pid) :
    s'.ptable i = s.ptable i := by
  rw [h.ptable, Function.update_of_ne hi]

/-- The slot `pid` is free. -/
structure Slot (s : State) (pid : ℕ) : Prop where
  pos : 0 < pid
  lt : pid < NPROC
  free : (s.ptable pid).state = .free
  pid : (s.ptable pid).pid = pid

theorem SetUp.holds (h : SetUp L s pid elf r f s') : s'.holds pid = WeensyOS.owned s'.mem r := by
  rw [State.holds, h.proc, if_neg ProcState.noConfusion, h.root]

theorem SetUp.uses_count (h : SetUp L s pid elf r f s') (hinv : Inv L d s) (hslot : Slot s pid)
    (p : ℕ) :
    s'.uses.count p = s.uses.count p + (WeensyOS.owned s'.mem r).count p := by
  have hcount := WeensyOS.uses_count (s := s) (t := s') hslot.lt (by rw [h.built.rest])
    (fun i hi hne => holds_congr (h.others hne) (fun hl => agree_of_used hinv.covered hl fun p hp =>
      h.built.mem p fun hnew => hp ⟨h.built.alloc hnew, hnew.1⟩) hi) p
  have hempty : s.holds pid = [] := if_pos hslot.free
  rw [hempty, h.holds, List.count_nil] at hcount
  exact hcount

/-- **A new process** keeps the invariant. -/
theorem Inv.setUp (hinv : Inv L d s) (h : SetUp L s pid elf r f s')
    (hplaced : WellPlaced elf.segments)
    (hslot : Slot s pid) : Inv L d s' := by
  obtain ⟨hnodup, hmem⟩ := h.owned hplaced
  have hsame : ∀ p, ¬ (Alloc L p ∧ s.pages p = 0) → s'.mem p = s.mem p := fun p hp =>
    h.built.mem p fun hnew => hp ⟨h.built.alloc hnew, hnew.1⟩
  have hzero : ∀ p ∈ WeensyOS.owned s'.mem r, s.uses.count p = 0 := fun p hp =>
    hinv.count_eq_zero ((hmem p).1 hp).1
  have hempty : s.holds pid = [] := if_pos hslot.free
  refine hinv.update hslot.lt (by rw [h.built.rest])
    (by rw [h.built.rest]; exact hinv.noStale) hslot.pos.ne'
    (fun _ => by rw [h.proc]; exact hslot.pid)
    (hinv.kernel.agree fun p hp _ => hsame p fun hfree => hp hfree.1)
    (fun i _ hi => h.others hi) (fun i hi _ => agree_of_used hinv.covered hi hsame)
    (fun _ => by rw [h.proc]; exact Nat.mul_mod_left r PAGESIZE)
    (fun _ => by rw [h.root]; exact h.procOk hplaced)
    (fun p hp hex => ?_) (fun p _ hp => ?_) fun p hp => ?_
  · rw [h.holds] at hp
    have h1 := hinv.exclusive p hex
    rw [hzero p hp] at h1
    cases h1
  · rw [h.root] at hp
    have hp' := hp.mem_owned
    rw [h.uses_count hinv hslot, hzero p hp', List.count_eq_one_of_mem hnodup hp']
  · have h1 := h.owned_count hplaced p
    have h2 := hinv.counts p hp
    rw [hempty, h.holds, List.count_nil]
    omega

/-! ## `kernel` -/

/-- Memory has been cleared, and nothing is allocated. -/
structure Cleared (s : State) : Prop where
  pages : ∀ p, s.pages p = 0
  viewer : s.viewer = 0
  spinning : s.spinning = false
  noStale : s.staleFree = false

/-- A state between two calls of `process_setup`. -/
structure Booting (L : Layout) (s : State) : Prop where
  inv : Inv L (fun _ => 0) s
  own : s.uses.Nodup
  viewer : s.viewer = 0
  spinning : s.spinning = false

theorem Cleared.booting (h : Cleared s) (hres : kernelMemory L s = .ok s') :
    Booting L (initPtable s') ∧
    ∀ pid, 0 < pid → pid < NPROC → Slot (initPtable s') pid := by
  rw [kernelMemory_eq] at hres
  cases hres
  have hslot : ∀ i < NPROC, (initPtable { s with mem := kernelMem L s.mem kernelEntries }).ptable i =
      { s.ptable i with pid := i, state := .free } := fun i hi => if_pos hi
  have hdead : ∀ i, ¬ (initPtable { s with mem := kernelMem L s.mem kernelEntries }).Live i :=
    fun i hi => hi.2 (by rw [hslot i hi.1])
  have hviewer : (initPtable { s with mem := kernelMem L s.mem kernelEntries }).viewerPages = [] :=
    if_pos h.viewer
  have huses : (initPtable { s with mem := kernelMem L s.mem kernelEntries }).uses = [] := by
    refine List.eq_nil_iff_forall_not_mem.2 fun p hp => ?_
    rcases mem_uses.1 hp with hp | ⟨i, hi, -⟩
    · rw [hviewer] at hp
      exact List.not_mem_nil hp
    · exact hdead i hi
  refine ⟨⟨⟨by rw [hslot 0 (by decide)], fun i hi => absurd hi (hdead i),
    fun i hi => absurd hi (hdead i),
      fun i hi => absurd hi (hdead i), fun p hp => ?_, fun p hp => ?_, fun p _ => ?_,
      kernelMem_kernelTable L s.mem, h.noStale⟩, ?_, h.viewer, h.spinning⟩,
    fun pid hpos hlt => ⟨hpos, hlt, by rw [hslot pid hlt], by rw [hslot pid hlt]⟩⟩
  · rcases hp with hp | ⟨i, hi, -⟩
    · rw [hviewer] at hp
      exact absurd hp List.not_mem_nil
    · exact absurd hi (hdead i)
  · rw [hviewer] at hp
    exact absurd hp List.not_mem_nil
  · rw [huses]
    change (s.pages p).toNat = _
    rw [h.pages]
    rfl
  · rw [huses]
    exact List.nodup_nil

theorem Booting.setUp (h : Booting L s) (hset : SetUp L s pid elf r f s')
    (hplaced : WellPlaced elf.segments)
    (hslot : Slot s pid) : Booting L s' := by
  obtain ⟨hnodup, hmem⟩ := hset.owned hplaced
  refine ⟨h.inv.setUp hset hplaced hslot, List.nodup_iff_count_le_one.2 fun p => ?_,
    by rw [hset.built.rest]; exact h.viewer, by rw [hset.built.rest]; exact h.spinning⟩
  rw [hset.uses_count h.inv hslot]
  by_cases hp : New s s' p
  · have h1 := List.nodup_iff_count_le_one.1 hnodup p
    rw [h.inv.count_eq_zero hp.1]
    omega
  · rw [List.count_eq_zero_of_not_mem fun hp' => hp ((hmem p).1 hp')]
    exact List.nodup_iff_count_le_one.1 h.own p

/-- The program can be loaded: its segments have no gaps. -/
structure Loads (L : Layout) (s : State) (elf : Elf) : Prop where
  magic : elf.magic = ELF_MAGIC
  placed : WellPlaced elf.segments
  enough : (elf.segments.flatMap ElfProgram.pages).length + 6 ≤ (freeList L s.pages).length
  contiguous : Contiguous L s elf.segments

/-- A call of `process_setup`. -/
def setupOne (L : Layout) (s : State) (x : ℕ × Option Elf) : Except Fault State := processSetup L s x.1 x.2

/-- The program of a call can be loaded. -/
def LoadsOne (L : Layout) (s : State) (x : ℕ × Option Elf) : Prop := ∃ elf, x.2 = some elf ∧ Loads L s elf

theorem Booting.setupOne {x : ℕ × Option Elf} (h : Booting L s) (hslot : Slot s x.1)
    (hloads : LoadsOne L s x) :
    ∃ s', setupOne L s x = .ok s' ∧ Booting L s' ∧ (s'.ptable x.1).state = .runnable ∧
      ∀ i, i ≠ x.1 → s'.ptable i = s.ptable i := by
  obtain ⟨elf, helf, hl⟩ := hloads
  have hloadable : Loadable L s elf := ⟨h.inv.kernel, hl.magic, hl.placed, hl.enough⟩
  obtain ⟨r, f, s', hres, hset⟩ := hloadable.setUp hl.contiguous x.1
  refine ⟨s', ?_, h.setUp hset hl.placed hslot, by rw [hset.proc], fun i hi => hset.others hi⟩
  rw [WeensyOS.setupOne, helf]
  exact hres

/-- **The calls of `process_setup`.** -/
theorem Booting.setups (ps : List (ℕ × Option Elf)) : ∀ {s}, Booting L s → (∀ x ∈ ps, Slot s x.1) →
    (ps.map Prod.fst).Nodup → Meets (WeensyOS.setupOne L) (LoadsOne L) s ps →
    ∃ s', run (WeensyOS.setupOne L) s ps = .ok s' ∧ Booting L s' ∧
      (∀ x ∈ ps, (s'.ptable x.1).state = .runnable) ∧ ∀ i, i ∉ ps.map Prod.fst →
        s'.ptable i = s.ptable i := by
  induction ps with
  | nil =>
    intro s h _ _ _
    exact ⟨s, rfl, h, fun x hx => absurd hx List.not_mem_nil, fun _ _ => rfl⟩
  | cons x ps ih =>
    intro s h hslots hnodup hloads
    rw [List.map_cons, List.nodup_cons] at hnodup
    obtain ⟨t, ht, hboot, hstate, hothers⟩ := h.setupOne (hslots x List.mem_cons_self) hloads.1
    have hne : ∀ y ∈ ps, y.1 ≠ x.1 := fun y hy heq => hnodup.1 (List.mem_map.2 ⟨y, hy, heq⟩)
    obtain ⟨s', hrun, hboot', hstates, hothers'⟩ := ih hboot (fun y hy => by
      obtain ⟨h1, h2, h3, h4⟩ := hslots y (List.mem_cons_of_mem _ hy)
      exact ⟨h1, h2, by rw [hothers _ (hne y hy), h3], by rw [hothers _ (hne y hy), h4]⟩) hnodup.2
        (hloads.2 t ht)
    refine ⟨s', run_cons.2 ⟨t, ht, hrun⟩, hboot', fun y hy => ?_, fun i hi => ?_⟩
    · rcases List.mem_cons.1 hy with rfl | hy
      · rw [hothers' _ hnodup.1, hstate]
      · exact hstates y hy
    · rw [List.map_cons, List.mem_cons, not_or] at hi
      rw [hothers' i hi.2, hothers i hi.1]

def allocators (ramimages : String → Option Elf) : List (ℕ × Option Elf) :=
  [(1, ramimages "allocator"), (2, ramimages "allocator2"), (3, ramimages "allocator3"),
    (4, ramimages "allocator4")]

/-- The calls that `kernel` makes. -/
def bootPrograms (ramimages : String → Option Elf) : Option String → Except Fault (List (ℕ × Option Elf))
  | none => .ok (allocators ramimages)
  | some name => do
    let phs ← programLoader (ramimages name)
    return if phs = [] then allocators ramimages else [(1, ramimages name)]

section
variable {ramimages : String → Option Elf} {command : Option String}

theorem kernel_eq : kernel L ramimages command s = (do
      let s ← kernelMemory L s
      let ps ← bootPrograms ramimages command
      let s ← run (setupOne L) (initPtable s) ps
      runProc L s 1) := by
  unfold kernel
  rw [kernelMemory_eq, ok_bind, ok_bind]
  generalize initPtable _ = t
  cases command with
  | none => simp only [bootPrograms, ok_bind, allocators, run, setupOne, bind_ok, bind_assoc]
  | some name =>
    simp only [bootPrograms]
    cases programLoader (ramimages name) with
    | error e => rfl
    | ok phs =>
      cases phs with
      | nil => simp [allocators, run, setupOne]
      | cons ph phs => simp [run, setupOne]

theorem bootPrograms_pids {ps : List (ℕ × Option Elf)}
    (h : bootPrograms ramimages command = .ok ps) :
    (ps.map Prod.fst).Nodup ∧ 1 ∈ ps.map Prod.fst ∧ ∀ i ∈ ps.map Prod.fst, 0 < i ∧ i < NPROC := by
  have hpids : ps.map Prod.fst = [1] ∨ ps.map Prod.fst = [1, 2, 3, 4] := by
    cases command with
    | none =>
      cases h
      exact Or.inr rfl
    | some name =>
      obtain ⟨phs, -, h⟩ := bind_eq_ok.1 h
      cases h
      split_ifs
      · exact Or.inr rfl
      · exact Or.inl rfl
  rcases hpids with h | h
  · rw [h]
    decide
  · rw [h]
    decide

end

theorem Booting.boot (h : Booting L s) (hlive : s.Live s.current) : Boot L s := by
  have hgood : Good L (fun _ => 0) s := ⟨h.inv, fun _ => hlive⟩
  exact ⟨h.inv.slot0, h.inv.pid, h.inv.kernel, h.viewer, h.spinning, h.inv.noStale, hlive,
    h.inv.aligned,
    fun i hi => (h.inv.procs i hi).shaped, fun i hi => (h.inv.procs i hi).full,
      fun i hi => (h.inv.procs i hi).small,
    h.own, fun p hp => h.inv.uses_alloc hp, hgood.exact, fun i hi => (h.inv.procs i hi).half,
    fun i hi => (h.inv.procs i hi).high⟩

/-- **`kernel`** sets up its programs, and runs the first one. -/
theorem kernel_boot (ramimages : String → Option Elf)
    (command : Option String) {ps : List (ℕ × Option Elf)}
    (hcleared : Cleared s) (hps : bootPrograms ramimages command = .ok ps)
    (hloads : ∀ s₁, kernelMemory L s = .ok s₁ → Meets (setupOne L) (LoadsOne L) (initPtable s₁) ps) :
    ∃ s', kernel L ramimages command s = .ok s' ∧ Boot L s' := by
  have hmem := kernelMemory_eq L s
  obtain ⟨hboot, hslots⟩ := hcleared.booting hmem
  obtain ⟨hnodup, hone, hrange⟩ := bootPrograms_pids hps
  obtain ⟨s₁, hrun, hboot₁, hstates, -⟩ := hboot.setups ps (fun x hx => by
    obtain ⟨h1, h2⟩ := hrange x.1 (List.mem_map_of_mem hx)
    exact hslots x.1 h1 h2) hnodup (hloads _ hmem)
  have hstate : (s₁.ptable 1).state = .runnable := by
    obtain ⟨x, hx, h1⟩ := List.mem_map.1 hone
    rw [← h1]
    exact hstates x hx
  have hproc := hboot₁.inv.runProc (i := 1) (by decide) hstate
  refine ⟨{ s₁ with current := 1 }, ?_, ?_⟩
  · rw [kernel_eq, hmem, ok_bind, hps, ok_bind, hrun, ok_bind, hproc]
  · have hframe : Inv L (fun _ => 0) { s₁ with current := 1 } :=
      hboot₁.inv.frame rfl rfl rfl (fun _ _ _ => rfl) (fun _ _ => ⟨Iff.rfl, fun _ => ⟨rfl, rfl⟩⟩)
        fun _ _ _ _ _ => rfl
    refine Booting.boot ⟨hframe, hboot₁.own, hboot₁.viewer,
      hboot₁.spinning⟩ ⟨show 1 < NPROC by decide, ?_⟩
    change (s₁.ptable 1).state ≠ .free
    rw [hstate]
    decide

end CProj.WeensyOS
