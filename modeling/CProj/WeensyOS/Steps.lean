/-
  Every event keeps the invariant.
-/
import CProj.WeensyOS.Invariant

namespace CProj.WeensyOS

variable {L : Layout} {d : ℕ → ℕ} {s s' : State} {i j p : ℕ}

/-! ## `syscall_exit` -/

theorem Inv.covers (h : Inv L d s) (hi : s.Live i) : Covers s (owned s.mem (s.root i)) := by
  intro p
  by_cases hp : p ∈ owned s.mem (s.root i)
  · have h1 := h.counts p ((h.procs i hi).alloc p hp).lt
    have h2 := count_holds_le (s := s) (p := p) hi.1
    rw [holds_of_live hi] at h2
    omega
  · rw [List.count_eq_zero_of_not_mem hp]
    exact Nat.zero_le _

theorem Inv.pfree (h : Inv L d s) (hi : s.Live i) :
    pfree s (s.ptable i).pagetable = .ok (s.release (owned s.mem (s.root i))) := by
  have hok := h.procs i hi
  have hfree : ∀ p ∈ owned s.mem (s.root i), Freeable p := fun p hp =>
    ⟨(hok.alloc p hp).pos, (hok.alloc p hp).lt, (hok.alloc p hp).not_console⟩
  rw [h.treeShaped.pagetable hi]
  refine pfree_spec hok.shaped (fun p hp => hfree p (mem_owned.2 (Or.inl hp))) (fun p hp => ?_)
    (h.covers hi)
  obtain ⟨h1, h2, -⟩ := hfree p (mem_owned.2 (Or.inr hp))
  exact ⟨h1, h2⟩

/-- The state after a process has exited. -/
def State.exited (s : State) (i : ℕ) : State :=
  (s.release (owned s.mem (s.root i))).setProc i { s.ptable i with state := .free }

theorem Inv.syscallExit (h : Inv L d s) (hlive : s.Live s.current) :
    syscallExit s = .ok (s.exited s.current) := by
  rw [WeensyOS.syscallExit, h.pfree hlive]
  rfl

/-- **`syscall_exit`** keeps the invariant. -/
theorem Inv.exited (h : Inv L d s) (hi : s.Live i) : Inv L d (s.exited i) := by
  have hself : (s.exited i).ptable i = { s.ptable i with state := .free } :=
    Function.update_self _ _ _
  have hdead : ¬ (s.exited i).Live i := fun hl => hl.2 (by rw [hself])
  have hempty : (s.exited i).holds i = [] := if_pos (by rw [hself])
  refine h.update hi.1 rfl h.noStale (h.ne_zero hi) (fun hl => absurd hl hdead) (fun _ _ _ => rfl)
    (fun j _ hj => Function.update_of_ne hj _ _) (fun j _ _ p _ k => rfl)
    (fun hl => absurd hl hdead) (fun hl => absurd hl hdead) (fun p hp => ?_) (fun p hl => absurd hl hdead)
    fun p hp => ?_
  · rw [hempty] at hp
    cases hp
  · have h1 := (h.covers hi).toNat_release p
    have h2 := h.covers hi p
    have h3 := h.counts p hp
    rw [hempty, holds_of_live hi, List.count_nil]
    change ((s.release (owned s.mem (s.root i))).pages p).toNat + _ = _
    omega

/-! ## `memshow` -/

/-- Changes that the current process does not notice. -/
structure Quiet (s s' : State) : Prop where
  ptable : s'.ptable = s.ptable
  current : s'.current = s.current
  spinning : s'.spinning = s.spinning
  agree : ∀ i, s.Live i → Agree s.mem s'.mem (tables s.mem 3 (s.root i))
  pages : ∀ p, s.pages p ≠ 0 → s'.pages p = s.pages p

/-- The viewer gets a page. -/
theorem Inv.show (h : Inv L d s) (hview : s.viewer = 0) {n : ℕ}
    (hn : firstFree L s.pages = some n) :
    Inv L d { s.alloc n 0 with viewer := n * 4096 } := by
  obtain ⟨halloc, h0⟩ := firstFree_some hn
  have hagree : ∀ i, s.Live i → Agree s.mem (s.alloc n 0).mem (tables s.mem 3 (s.root i)) :=
    fun i hi =>
    agree_alloc (h.covered.tables hi) h0 0
  have hpages : ({ s.alloc n 0 with viewer := n * 4096 } : State).viewerPages = [n] := by
    have hpos := halloc.pos
    rw [State.viewerPages, if_neg (by simp only; omega)]
    exact congrArg (fun p => [p]) (page_div n)
  have huses : ({ s.alloc n 0 with viewer := n * 4096 } : State).uses = n :: s.uses := by
    have hnil : s.viewerPages = [] := if_pos hview
    have hholds : (List.range NPROC).flatMap
        ({ s.alloc n 0 with viewer := n * 4096 } : State).holds =
          (List.range NPROC).flatMap s.holds := by
      refine List.flatMap_congr fun i hi => ?_
      exact holds_congr rfl (hagree i) (List.mem_range.1 hi)
    rw [State.uses, State.uses, hpages, hnil, hholds, List.singleton_append, List.nil_append]
  have hzero := h.count_eq_zero h0
  have hkernel : Agree s.mem (s.alloc n 0).mem (tables s.mem 3 (kernelRoot L)) :=
    agree_fill fun ht => (h.kernel.image n ht).1 halloc
  refine ⟨h.slot0, h.pid, h.aligned, fun i hi => (hagree i hi).procOk (h.procs i hi),
    fun p hp => ?_, fun p hp => ?_, fun p hp => ?_, hkernel.kernelTable h.kernel, h.noStale⟩
  · rw [huses, List.count_cons]
    by_cases hpn : n = p
    · subst hpn
      rw [hzero, if_pos (by simp)]
    · rw [if_neg (by simpa using hpn), Nat.add_zero]
      refine h.exclusive p ?_
      rcases hp with hp | ⟨i, hi, hp⟩
      · rw [hpages] at hp
        exact absurd (List.mem_singleton.1 hp).symm hpn
      · exact Or.inr ⟨i, hi, (hagree i hi).private.1 hp⟩
  · rw [hpages] at hp
    rw [List.mem_singleton.1 hp]
    exact halloc
  · rw [huses, List.count_cons]
    change (Function.update s.pages n 1 p).toNat = _
    have h1 := h.counts p hp
    rw [Function.update_apply]
    by_cases hpn : p = n
    · subst hpn
      have hz : (0 : UInt8).toNat = 0 := rfl
      rw [h0, hz] at h1
      rw [if_pos rfl, if_pos (by simp)]
      have h2 : (1 : UInt8).toNat = 1 := rfl
      omega
    · rw [if_neg hpn, if_neg (by simpa using Ne.symm hpn), h1, Nat.add_zero]

/-- **`memshow`** keeps the invariant. -/
theorem Inv.memshow (h : Inv L d s) (hres : memshow L s = .ok s') : Inv L d s' ∧ Quiet s s' := by
  rw [WeensyOS.memshow] at hres
  obtain ⟨-, -, hres⟩ := bind_eq_ok.1 hres
  by_cases hview : s.viewer = 0
  · rw [if_pos hview] at hres
    cases hn : firstFree L s.pages with
    | none =>
      rw [kalloc_none hn] at hres
      cases hres
    | some n =>
      obtain ⟨halloc, h0⟩ := firstFree_some hn
      simp only [kalloc_some hn] at hres
      obtain ⟨-, -, hres⟩ := bind_eq_ok.1 hres
      have heq : s' = { s.alloc n 0 with viewer := n * 4096 } := by
        cases hres
        simp only [State.alloc, page_div, fill_fill]
      subst heq
      refine ⟨h.show hview hn, rfl, rfl, rfl, fun i hi => agree_alloc (h.covered.tables hi) h0 0,
        fun p hp => ?_⟩
      refine Function.update_of_ne ?_ _ _
      rintro rfl
      exact hp h0
  · rw [if_neg hview] at hres
    cases hres
    have hmem : s.viewer / PAGESIZE ∈ s.viewerPages := by
      rw [State.viewerPages, if_neg hview]
      exact List.mem_singleton_self _
    have hagree : ∀ i, s.Live i →
        Agree s.mem (s.mem.fill (s.viewer / PAGESIZE) 0) (tables s.mem 3 (s.root i)) := by
      intro i hi
      refine agree_fill fun ht => ?_
      have h1 := h.exclusive _ (Or.inl hmem)
      have h2 := two_le_count hi.1 (by rw [holds_of_live hi]; exact mem_owned.2 (Or.inr ht))
        (Or.inl hmem)
      omega
    have hkernel : Agree s.mem (s.mem.fill (s.viewer / PAGESIZE) 0) (tables s.mem 3 (kernelRoot L)) :=
      agree_fill fun ht => (h.kernel.image _ ht).1 (h.viewer _ hmem)
    exact ⟨h.frame rfl rfl rfl hkernel (fun _ _ => ⟨Iff.rfl, fun _ => ⟨rfl, rfl⟩⟩) hagree, rfl, rfl,
      rfl, hagree, fun _ _ => rfl⟩

/-! ## Stores -/

/-- A page that a process may write to is no table. -/
theorem Inv.not_table {n q v : ℕ} (h : Inv L d s) (hi : s.Live i) (hj : s.Live j)
    (htr : translate s.mem (s.root i) v = some (n, q)) (hv : Canonical v) (huser : IsUser q)
    (hwr : IsWritable q) : n ∉ tables s.mem 3 (s.root j) := by
  intro ht
  have hok := h.procs i hi
  by_cases hlow : v < 256
  · have halloc := (h.procs j hj).alloc n (mem_owned.2 (Or.inr ht))
    refine halloc.not_console ?_
    rw [(hok.low v hlow n q htr huser).2.1]
    rfl
  · by_cases hhigh : v < 768
    · have hpriv : Private s.mem (s.root i) n := Or.inr ⟨v, q, by omega, hhigh, htr, huser, hwr⟩
      have h1 := h.exclusive n (Or.inr ⟨i, hi, hpriv⟩)
      by_cases hij : i = j
      · subst hij
        have hproc : n ∈ procPages s.mem (s.root i) :=
          mem_procPages.2 ⟨v, by omega, hhigh, userPage_eq_some.2 ⟨q, htr, huser⟩⟩
        have h2 := List.nodup_iff_count_le_one.1 hok.single n
        have h3 := List.count_pos_iff.2 hproc
        have h4 : 0 < (subtables s.mem 3 (s.root i) ++ [s.root i]).count n := by
          refine List.count_pos_iff.2 ?_
          rw [tables, List.mem_cons] at ht
          rw [List.mem_append, List.mem_singleton]
          exact ht.symm
        rw [owned, List.append_assoc, List.count_append] at h2
        omega
      · have hmem : n ∈ s.holds j := by
          rw [holds_of_live hj]
          exact mem_owned.2 (Or.inr ht)
        have h2 := two_le_count hj.1 hmem (Or.inr ⟨i, hi, hij, hpriv⟩)
        omega
    · rw [hok.high v hv (by omega)] at htr
      cases htr

/-- A page that a process may write to is the console, or belongs to the pool. -/
theorem Inv.writable {n q v : ℕ} (h : Inv L d s) (hi : s.Live i)
    (htr : translate s.mem (s.root i) v = some (n, q)) (hv : Canonical v) (huser : IsUser q) :
    n = CONSOLE_PAGE ∨ Alloc L n := by
  have hok := h.procs i hi
  by_cases hlow : v < 256
  · exact Or.inl (hok.low v hlow n q htr huser).2.1
  · by_cases hhigh : v < 768
    · refine Or.inr (hok.alloc n (mem_owned.2 (Or.inl (mem_procPages.2 ⟨v, by omega, hhigh, ?_⟩))))
      exact userPage_eq_some.2 ⟨q, htr, huser⟩
    · rw [hok.high v hv (by omega)] at htr
      cases htr

/-- **A store** keeps the invariant. -/
theorem Inv.store (h : Inv L d s) (hlive : s.Live s.current) (v k w : ℕ) :
    Inv L d (userStore s v k w) ∧ Quiet s (userStore s v k w) := by
  have hrefl : Inv L d s ∧ Quiet s s := ⟨h, rfl, rfl, rfl, fun _ _ _ _ _ => rfl, fun _ _ => rfl⟩
  rw [userStore]
  cases htr : translate s.mem ((s.ptable s.current).pagetable / PAGESIZE) v with
  | none => exact hrefl
  | some x =>
    obtain ⟨n, q⟩ := x
    simp only
    split_ifs with hq
    · obtain ⟨huser, hwr, hv, -⟩ := hq
      have hagree : ∀ i, s.Live i → Agree s.mem (s.mem.set n k w) (tables s.mem 3 (s.root i)) :=
        fun i hi => agree_set (h.not_table hlive hi htr hv huser hwr)
      have hkernel : Agree s.mem (s.mem.set n k w) (tables s.mem 3 (kernelRoot L)) := by
        refine agree_set fun ht => ?_
        obtain ⟨h1, h2⟩ := h.kernel.image n ht
        exact (h.writable hlive htr hv huser).elim h2 h1
      exact ⟨h.frame rfl rfl rfl hkernel (fun _ _ => ⟨Iff.rfl, fun _ => ⟨rfl, rfl⟩⟩) hagree, rfl,
        rfl, rfl, hagree, fun _ _ => rfl⟩
    · exact hrefl

/-! ## Scheduling -/

/-- A change to a slot that keeps it free or not, and keeps its table and number. -/
theorem Inv.setProc (h : Inv L d s) {q : Proc} (hfree : q.state = .free ↔
    (s.ptable i).state = .free)
    (hpt : q.pagetable = (s.ptable i).pagetable) (hpid : q.pid = (s.ptable i).pid) :
    Inv L d (s.setProc i q) := by
  refine h.frame rfl rfl rfl (fun _ _ _ => rfl) (fun k _ => ?_) fun _ _ _ _ _ => rfl
  change ((Function.update s.ptable i q k).state = _ ↔ _) ∧
    (_ → (Function.update s.ptable i q k).pagetable = _ ∧ (Function.update s.ptable i q k).pid = _)
  by_cases hk : k = i
  · subst hk
    rw [Function.update_self]
    exact ⟨hfree, fun _ => ⟨hpt, hpid⟩⟩
  · rw [Function.update_of_ne hk]
    exact ⟨Iff.rfl, fun _ => ⟨rfl, rfl⟩⟩

/-- A state between two events: the invariant holds, and a process is running. -/
structure Good (L : Layout) (d : ℕ → ℕ) (s : State) : Prop where
  inv : Inv L d s
  running : s.spinning = false → s.Live s.current

theorem runProc_ok (hres : runProc L s i = .ok s') :
    s' = { s with current := i } ∧ (s.ptable i).state = .runnable := by
  rw [runProc] at hres
  obtain ⟨_, hassert, hres⟩ := bind_eq_ok.1 hres
  obtain ⟨-, -, hres⟩ := bind_eq_ok.1 hres
  refine ⟨(Except.ok.inj hres).symm, ?_⟩
  by_contra hstate
  rw [assert_error hstate] at hassert
  cases hassert

/-- **`schedule`** ends with a process running, or spins. -/
theorem Inv.schedule (h : Inv L d s) (hres : schedule L s = .ok s') : Good L d s' := by
  have hframe : ∀ t : State, t.mem = s.mem → t.pages = s.pages → t.ptable = s.ptable →
      t.viewer = s.viewer → t.staleFree = s.staleFree → Inv L d t := by
    intro t h1 h2 h3 h4 h5
    refine h.frame h4 h5 h2 (fun p _ k => by rw [h1]) (fun i _ => ?_) fun i _ p _ k => ?_
    · rw [h3]
      exact ⟨Iff.rfl, fun _ => ⟨rfl, rfl⟩⟩
    · rw [h1]
  rw [WeensyOS.schedule] at hres
  cases hnext : nextRunnable s with
  | none =>
    rw [hnext] at hres
    cases hres
    exact ⟨hframe _ rfl rfl rfl rfl rfl, fun hspin => by cases hspin⟩
  | some k =>
    rw [hnext] at hres
    obtain ⟨rfl, hstate⟩ := runProc_ok hres
    refine ⟨hframe _ rfl rfl rfl rfl rfl, fun _ => ⟨?_, ?_⟩⟩
    · obtain ⟨x, -, hx⟩ := List.mem_map.1 (List.mem_of_find?_eq_some hnext)
      rw [← hx]
      exact Nat.mod_lt _ (by decide)
    · change (s.ptable k).state ≠ .free
      rw [hstate]
      decide

/-! ## Events -/

/-- A fork by the current process does not overflow a count. -/
def SafeFork (s : State) : Event → Prop
  | .syscall regs => regs.rax = SYSCALL_FORK → ForkSafe s
  | _ => True

/-- A page that `syscall_page_alloc` maps is not mapped yet. -/
def AllocsUnmapped (L : Layout) (s : State) : Event → Prop
  | .syscall regs => regs.rax = SYSCALL_PAGE_ALLOC → ∀ s₁ s₂,
    memshow L (saveRegs s regs) = .ok s₁ → syscallPageAlloc L s₁ regs.rdi = .ok (0, s₂) →
    translate s₁.mem (s₁.root s₁.current) (regs.rdi / PAGESIZE) = none
  | _ => True

theorem Quiet.live (h : Quiet s s') : s'.Live i ↔ s.Live i := by
  rw [State.Live, State.Live, h.ptable]

theorem Quiet.root (h : Quiet s s') : s'.root i = s.root i := by
  rw [State.root, State.root, h.ptable]

theorem Quiet.shares (h : Quiet s s') (hlive : s.Live s.current) :
    shares s'.mem (s'.root s'.current) 768 = WeensyOS.shares s.mem (s.root s.current) 768 := by
  rw [h.root, h.current]
  refine List.flatMap_congr fun w _ => ?_
  rw [shared, shared, (h.agree _ hlive).translate]

theorem Inv.forkSafe_quiet (h : Inv L d s) (hlive : s.Live s.current) (hq : Quiet s s')
    (hsafe : ForkSafe s) : ForkSafe s' := by
  intro p hp
  rw [hq.shares hlive] at hp
  rw [hq.pages p ((h.parent hlive).pages p ((h.parent hlive).mem_procPages le_rfl hp))]
  exact hsafe p hp

theorem saveRegs_root {regs : Regs} : (saveRegs s regs).root i = s.root i := by
  change (Function.update s.ptable s.current _ i).pagetable / PAGESIZE = _
  by_cases hi : i = s.current
  · subst hi
    rw [Function.update_self]
    rfl
  · rw [Function.update_of_ne hi]
    rfl

theorem saveRegs_live {regs : Regs} : (saveRegs s regs).Live i ↔ s.Live i := by
  change _ ∧ (Function.update s.ptable s.current _ i).state ≠ _ ↔ _
  by_cases hi : i = s.current
  · subst hi
    rw [Function.update_self]
    rfl
  · rw [Function.update_of_ne hi]
    rfl

theorem Inv.saveRegs (h : Inv L d s) (regs : Regs) : Inv L d (saveRegs s regs) :=
  h.setProc Iff.rfl rfl rfl

theorem forkSafe_saveRegs {regs : Regs} (h : ForkSafe s) : ForkSafe (saveRegs s regs) := by
  intro p hp
  change p ∈ shares s.mem ((WeensyOS.saveRegs s regs).root s.current) 768 at hp
  rw [saveRegs_root] at hp
  exact h p hp

/-- **The switch of `syscall`** keeps the invariant. -/
theorem Inv.dispatch {regs : Regs} {r : Option ℤ} (h : Inv L d s) (hlive : s.Live s.current)
    (hsafe : regs.rax = SYSCALL_FORK → ForkSafe s)
    (hres : dispatch L s regs = .ok (r, s')) :
    ∃ d', Good L d' s' ∧ ((regs.rax = SYSCALL_PAGE_ALLOC → ∀ s₂,
      syscallPageAlloc L s regs.rdi = .ok (0, s₂) →
      translate s.mem (s.root s.current) (regs.rdi / PAGESIZE) = none) → d' = d) := by
  rw [WeensyOS.dispatch] at hres
  split_ifs at hres with h1 h2 h3 h4 h5
  · cases hres
    exact ⟨d, ⟨h, fun _ => hlive⟩, fun _ => rfl⟩
  · obtain ⟨s₁, hsched, hres⟩ := bind_eq_ok.1 hres
    cases hres
    exact ⟨d, (h.saveRegs _).schedule hsched, fun _ => rfl⟩
  · obtain ⟨⟨k, s₁⟩, hcall, hres⟩ := bind_eq_ok.1 hres
    cases hres
    obtain ⟨hinv, hrest, -⟩ := h.pageAlloc hlive hcall
    refine ⟨_, ⟨hinv, fun _ => ?_⟩, fun hnone => ?_⟩
    · have hcur : s'.current = s.current := by rw [hrest]
      have hptable : s'.ptable = s.ptable := by rw [hrest]
      rw [State.Live, hcur, hptable]
      exact hlive
    · funext p
      rw [lost]
      split_ifs with hk
      · subst hk
        have hnone' : translate s.mem (s.root s.current) (regs.rdi / 4096) = none :=
          hnone h3 _ hcall
        rw [userPage, hnone']
        rfl
      · rfl
  · obtain ⟨⟨k, s₁⟩, hcall, hres⟩ := bind_eq_ok.1 hres
    cases hres
    obtain ⟨hinv, hcur, -, hothers, -⟩ := h.fork hlive (hsafe h4) hcall
    refine ⟨d, ⟨hinv, fun _ => ?_⟩, fun _ => rfl⟩
    rw [State.Live, hcur, hothers _ hlive]
    exact hlive
  · obtain ⟨s₁, hcall, hres⟩ := bind_eq_ok.1 hres
    obtain ⟨s₂, hsched, hres⟩ := bind_eq_ok.1 hres
    cases hres
    rw [h.syscallExit hlive] at hcall
    cases hcall
    exact ⟨d, (h.exited hlive).schedule hsched, fun _ => rfl⟩

theorem syscallEntry_ok {regs : Regs} {r : Option ℤ} (hres : syscallEntry L s regs = .ok (r, s')) :
    ∃ s₁, memshow L (saveRegs s regs) = .ok s₁ ∧ dispatch L s₁ regs = .ok (r, s') := by
  rw [syscallEntry] at hres
  obtain ⟨⟨r₁, s₂⟩, hcall, hres⟩ := bind_eq_ok.1 hres
  obtain ⟨-, -, hres⟩ := bind_eq_ok.1 hres
  cases hres
  exact bind_eq_ok.1 hcall

/-- **An exception** keeps the invariant. -/
theorem Good.exception {regs : Regs} (h : Good L d s) (hspin : s.spinning = false)
    (hres : exception L s regs = .ok s') : Good L d s' := by
  have hlive := h.running hspin
  -- the switch, after the state has been saved and shown
  have hswitch : ∀ s₁, Inv L d s₁ → s₁.Live s₁.current →
      (if regs.intno = INT_TIMER then WeensyOS.schedule L s₁
        else if regs.intno = INT_PF then
          if regs.errcode &&& PFERR_USER = 0 then .error .panic
          else WeensyOS.schedule L (s₁.setProc s₁.current { s₁.ptable s₁.current with state := .broken })
        else .error .panic) = .ok s' → Good L d s' := by
    intro s₁ hinv hlive hres
    split_ifs at hres with h1 h2 h3
    · exact hinv.schedule hres
    · refine (hinv.setProc (i := s₁.current) ?_ ?_ ?_).schedule hres
      · exact iff_of_false ProcState.noConfusion hlive.2
      · rfl
      · rfl
  rw [WeensyOS.exception] at hres
  by_cases hshow : regs.intno ≠ INT_PF ∨ regs.errcode &&& PFERR_USER ≠ 0
  · simp only [if_pos hshow] at hres
    obtain ⟨s₁, hs, hres⟩ := bind_eq_ok.1 hres
    obtain ⟨hinv, hq⟩ := (h.inv.saveRegs regs).memshow hs
    refine hswitch s₁ hinv ?_ hres
    rw [hq.live, hq.current]
    exact saveRegs_live.2 hlive
  · simp only [if_neg hshow] at hres
    exact hswitch _ (h.inv.saveRegs regs) (saveRegs_live.2 hlive) hres

/-- **One event.** -/
theorem Good.step {ev : Event} (h : Good L d s) (hsafe : SafeFork s ev)
    (hres : step L s ev = .ok s') :
    ∃ d', Good L d' s' ∧ (AllocsUnmapped L s ev → d' = d) := by
  unfold WeensyOS.step at hres
  split_ifs at hres with hspin
  have hspin' : s.spinning = false := Bool.eq_false_iff.2 hspin
  have hlive := h.running hspin'
  cases ev with
  | syscall regs =>
    obtain ⟨⟨r, s₂⟩, hcall, hres⟩ := bind_eq_ok.1 hres
    cases hres
    obtain ⟨s₁, hshow, hdisp⟩ := syscallEntry_ok hcall
    obtain ⟨hinv, hq⟩ := (h.inv.saveRegs regs).memshow hshow
    have hlive₁ : s₁.Live s₁.current := by
      rw [hq.live, hq.current]
      exact saveRegs_live.2 hlive
    obtain ⟨d', hgood, hd⟩ := hinv.dispatch hlive₁
      (fun hrax => (h.inv.saveRegs regs).forkSafe_quiet (saveRegs_live.2 hlive) hq
        (forkSafe_saveRegs (hsafe hrax))) hdisp
    exact ⟨d', hgood, fun hun => hd fun hrax s₂ hs₂ => hun hrax s₁ s₂ hshow hs₂⟩
  | exception regs => exact ⟨d, h.exception hspin' hres, fun _ => rfl⟩
  | store v k w =>
    cases hres
    obtain ⟨hinv, hq⟩ := h.inv.store hlive v k w
    refine ⟨d, ⟨hinv, fun _ => ?_⟩, fun _ => rfl⟩
    rw [hq.live, hq.current]
    exact hlive

end CProj.WeensyOS
