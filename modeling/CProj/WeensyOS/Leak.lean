/-
  Losing references.

  A child that calls `syscall_page_alloc` on a page that it shares with its parent, and exits, leaves
  the count of the page one too high.  The parent can repeat this until the count is 255; the next
  fork then sets it to 0, while the page is still mapped.
-/
import Mathlib.Order.Interval.Finset.Nat
import CProj.WeensyOS.Progress

namespace CProj.WeensyOS

variable {L : Layout} {m : Mem} {s : State} {r V X k : ℕ}

/-- A page table with the read-only page `X` at `PROC_START_ADDR`, and few other pages.  There are
    eleven free pages below it, with or without the viewer's page `V`. -/
structure Leaky (L : Layout) (m : Mem) (r V X : ℕ) : Prop where
  page : ∃ q, translate m r 256 = some (X, q) ∧ IsUser q ∧ ¬ IsWritable q
  shares : shares m r 768 = [X]
  copies : (List.range 768).countP (copied m r) ≤ 2
  low : ∀ p, 1 ≤ p → p ≤ 11 → Alloc L p ∧ p ∉ owned m r ∧ p ≠ V
  above : 11 < X
  viewer : 0 < V ∧ V ≠ X

/-- The process in slot 2 is alone, with that table, and `k` references to `X` have been lost. -/
structure Leaked (L : Layout) (m : Mem) (r V X k : ℕ) (s : State) : Prop where
  turn : Turn L (fun p => if p = X then k else 0) [2] 2 (V * 4096) s
  root : s.root 2 = r
  agree : Agree m s.mem (tables m 3 r)

/-- The events by which one more reference is lost. -/
def leak : List Event :=
  [call SYSCALL_FORK 0, call SYSCALL_YIELD 0, call SYSCALL_PAGE_ALLOC PROC_START_ADDR, call SYSCALL_EXIT 0]

section
variable (h : Leaked L m r V X k s)
include h

theorem Leaked.uses (hV : 0 < V) : s.uses = V :: owned m r := by
  have hact := h.turn.active
  have hviewer : s.viewerPages = [V] := by
    rw [State.viewerPages, h.turn.viewer, if_neg (by omega), page_div]
  have hlive : s.Live 2 := (hact.live 2).2 List.mem_cons_self
  have hholds : (List.range NPROC).flatMap s.holds = s.holds 2 := by
    refine flatMap_eq_single List.nodup_range (List.mem_range.2 (by decide)) fun i hi hne =>
      if_pos ?_
    refine (hact.free_iff (List.mem_range.1 hi)).2 ?_
    simpa using hne
  rw [State.uses, hviewer, hholds, holds_of_live hlive, h.root, h.agree.owned,
    List.singleton_append]

theorem Leaked.pages_low (hl : Leaky L m r V X) {p : ℕ} (h1 : 1 ≤ p) (h2 : p ≤ 11) :
    p ∈ freePages L s.pages := by
  obtain ⟨halloc, howned, hV⟩ := hl.low p h1 h2
  refine mem_freePages.2 ⟨halloc, UInt8.toNat_inj.1 ?_⟩
  have habove := hl.above
  rw [h.turn.active.inv.counts p halloc.lt, h.uses hl.viewer.1, if_neg (by omega)]
  exact List.count_eq_zero_of_not_mem fun hmem => (List.mem_cons.1 hmem).elim hV howned

/-- The count of the page. -/
theorem Leaked.pages_eq (hl : Leaky L m r V X) : (s.pages X).toNat = k + 1 := by
  obtain ⟨q, htr, huser, -⟩ := hl.page
  have hact := h.turn.active
  have hlive : s.Live 2 := (hact.live 2).2 List.mem_cons_self
  have hok := hact.inv.procs 2 hlive
  rw [h.root] at hok
  have howned : X ∈ owned m r :=
    mem_owned.2 (Or.inl (mem_procPages.2 ⟨256, le_rfl, by decide, userPage_eq_some.2 ⟨q, htr, huser⟩⟩))
  have hsingle := hok.single
  have halloc := hok.alloc X
  rw [h.agree.owned] at hsingle halloc
  rw [hact.inv.counts X (halloc howned).lt, h.uses hl.viewer.1, List.count_cons_of_ne hl.viewer.2,
    List.count_eq_one_of_mem hsingle howned, if_pos rfl]
  omega

theorem Leaked.shares_eq (hl : Leaky L m r V X) : shares s.mem (s.root 2) 768 = [X] := by
  rw [h.root, ← hl.shares]
  refine List.flatMap_congr fun w _ => ?_
  rw [shared, shared, h.agree.translate]

theorem Leaked.copies_le (hl : Leaky L m r V X) : copies s ≤ 2 := by
  have heq : copied s.mem (s.root 2) = copied m r := by
    funext w
    rw [copied, copied, h.root, h.agree.translate]
  rw [copies, h.turn.current, heq]
  exact hl.copies

/-- There is memory for a fork. -/
theorem Leaked.room (hl : Leaky L m r V X) : copies s + 6 < (freePages L s.pages).card := by
  have hsub : Finset.Icc 1 11 ⊆ freePages L s.pages := by
    intro p hp
    obtain ⟨h1, h2⟩ := Finset.mem_Icc.1 hp
    exact h.pages_low hl h1 h2
  have hcard := Finset.card_le_card hsub
  have hcopies := h.copies_le hl
  rw [Nat.card_Icc] at hcard
  omega

theorem Leaked.forkSafe (hl : Leaky L m r V X) (hk : k < 254) : ForkSafe s := by
  intro p hp h255
  rw [h.turn.current, h.shares_eq hl, List.mem_singleton] at hp
  subst hp
  have hcount := h.pages_eq hl
  rw [h255] at hcount
  have h3 : (255 : UInt8).toNat = 255 := rfl
  omega

/-- A state in which the process has the same table. -/
theorem Leaked.keeps {n : ℕ} {s' : State} (hkeeps : Keeps 2 s s')
    (hturn : Turn L (fun p => if p = X then n else 0) [2] 2 (V * 4096) s') :
    Leaked L m r V X n s' := by
  refine ⟨hturn, hkeeps.root.trans h.root, fun p hp i => ?_⟩
  rw [hkeeps.agree p (by rw [h.root, h.agree.tables]; exact hp), h.agree p hp]

/-- **One more reference is lost.** -/
theorem Leaked.leak (hl : Leaky L m r V X) (hk : k < 254) :
    ∃ s', run (step L) s leak = .ok s' ∧ Leaked L m r V X (k + 1) s' := by
  have hV : V * 4096 ≠ 0 := by
    have := hl.viewer.1
    omega
  obtain ⟨q, htr, huser, hnw⟩ := hl.page
  rw [← h.agree.translate, ← h.root] at htr
  -- the child is in slot 1
  obtain ⟨s₁, hstep₁, h₁, hkeeps₁, hfree₁, hchild⟩ :=
    h.turn.fork hV (k := 1) rfl (h.forkSafe hl hk) (h.room hl)
  obtain ⟨q', htr', hq'⟩ := hchild 256 (by decide) X q htr hnw
  have huser' : IsUser q' := by
    rw [← isUser_pwu, hq', isUser_pwu]
    exact huser
  obtain ⟨s₂, hstep₂, h₂, hpages₂, hkeeps₂⟩ := h₁.yield (j := 1) (by rw [h₁.shown hV]; exact hV) rfl
  rw [h₁.shown hV] at h₂
  rw [← (hkeeps₂ 1 (by decide)).translate] at htr'
  obtain ⟨s₃, hstep₃, h₃, hkeeps₃⟩ := h₂.pageAlloc hV (show ValidAddr PROC_START_ADDR by decide)
    (by rw [hpages₂ hV]; exact hfree₁) htr' huser'
  obtain ⟨s₄, hstep₄, h₄, hkeeps₄⟩ := h₃.exit (j := 2) (by rw [h₃.shown hV]; exact hV) rfl
  rw [h₃.shown hV] at h₄
  have hkeeps : Keeps 2 s s₄ := (hkeeps₁ 2 (by decide)).trans ((hkeeps₂ 2 (by decide)).trans
    ((hkeeps₃ 2 (by decide) (by decide)).trans (hkeeps₄ 2 (by decide) (by decide))))
  have hlost : (fun p => (if p = X then k else 0) + if p = X then 1 else 0) =
      fun p => if p = X then k + 1 else 0 := by
    funext p
    split_ifs <;> rfl
  rw [hlost] at h₄
  refine ⟨s₄, ?_, h.keeps hkeeps h₄⟩
  exact run_cons.2 ⟨s₁, hstep₁, run_cons.2 ⟨s₂, hstep₂, run_cons.2 ⟨s₃, hstep₃,
    run_cons.2 ⟨s₄, hstep₄, rfl⟩⟩⟩⟩

end

/-- **References can be lost until the count is 255.** -/
theorem Leaked.leaks (hl : Leaky L m r V X) (h : Leaked L m r V X 0 s) : ∀ k ≤ 254,
    ∃ s', run (step L) s (List.replicate k WeensyOS.leak).flatten = .ok s' ∧ Leaked L m r V X k s'
  | 0, _ => ⟨s, rfl, h⟩
  | k + 1, hk => by
    obtain ⟨s₁, hrun, h₁⟩ := Leaked.leaks hl h k (by omega)
    obtain ⟨s₂, hrun', h₂⟩ := h₁.leak hl (by omega)
    refine ⟨s₂, ?_, h₂⟩
    rw [List.replicate_succ', List.flatten_append, run_append]
    exact ⟨s₁, hrun, by simpa using hrun'⟩

/-! ## The last fork -/

section
variable {slot c : ℕ} {s' : State}

/-- In the last fork `kalloc` never hands out the page itself: there are free pages below it. -/
theorem Leaked.freshAlloc (hl : Leaky L m r V X) (h : Leaked L m r V X k s) :
    FreshAlloc L (forkBase s slot c) (s.root 2) c := by
  have hlive : s.Live 2 := (h.turn.active.live 2).2 List.mem_cons_self
  have hb := h.turn.active.inv.parent hlive
  have hb' : Parent (forkBase s slot c) (s.root 2) := ⟨hb.shaped, hb.used, hb.low, hb.pages⟩
  intro v E K s' n hv hE hinv hfree
  have hzero := (firstFree_some hfree).2
  have hnew : n ∉ E ++ K ++ tables s'.mem 3 c := by
    intro hmem
    rw [hinv.pages_eq_one hb' hv.le hmem] at hzero
    cases hzero
  refine ⟨?_, hnew⟩
  have hne : n ≠ X := by
    rintro rfl
    have hlength : (E ++ K ++ tables s'.mem 3 c).length < (Finset.Icc 1 11).card := by
      have h1 := hinv.length_le hE hv.le
      have h2 : (List.range 768).countP (copied (forkBase s slot c).mem (s.root 2)) ≤ 2 := by
        have := h.copies_le hl
        rw [copies, h.turn.current] at this
        exact this
      rw [Nat.card_Icc]
      omega
    obtain ⟨p, hp, hp'⟩ := exists_mem_not_mem hlength
    obtain ⟨h1, h2⟩ := Finset.mem_Icc.1 hp
    have hle := firstFree_le hfree (hinv.mem_freePages hb' hv.le (h.pages_low hl h1 h2) hp')
    have := hl.above
    omega
  have hshares : n ∉ shares (forkBase s slot c).mem (s.root 2) v := by
    intro hmem
    have hle := shares_count_le (m := s.mem) (r := s.root 2) (p := n) hv.le
    rw [h.shares_eq hl] at hle
    have hpos := List.count_pos_iff.2 hmem
    change 0 < (shares s.mem (s.root 2) v).count n at hpos
    exact hne (List.mem_singleton.1 (List.count_pos_iff.1 (lt_of_lt_of_le hpos hle)))
  rw [hinv.pages, List.count_append, List.count_eq_zero_of_not_mem hnew,
    List.count_eq_zero_of_not_mem hshares] at hzero
  exact (UInt8.add_zero _).symm.trans hzero

/-- The child's table is complete, and the count of the page is 0. -/
theorem Leaked.overflow (hl : Leaky L m r V X) (h : Leaked L m r V X 254 s) :
    ∃ s', syscallFork L s = .ok (1, s') ∧ s'.pages X = 0 ∧ s'.current = 2 ∧
      s'.ptable 2 = s.ptable 2 ∧ Keeps 2 s s' := by
  have hact := h.turn.active
  have hcur := h.turn.current
  have hlive : s.Live s.current := (hact.live _).2 (by rw [hcur]; exact List.mem_cons_self)
  have hb := hact.inv.parent hlive
  have hslot : freeSlot s = some 1 := hact.freeSlot.trans rfl
  have h255 : s.pages X = 255 := UInt8.toNat_inj.1 (h.pages_eq hl)
  have hin : ∀ p ∈ shares s.mem (s.root s.current) 768, p < NPAGES := fun p hp =>
    ((hact.inv.procs _ hlive).alloc p (mem_owned.2 (Or.inl (hb.mem_procPages le_rfl hp)))).lt
  have hforks : Forks L s (s.root s.current) (syscallFork L s) := by
    refine syscallFork_spec hlive (hact.inv.treeShaped.pagetable hlive) hb (fun slot c => ?_) hin
    rw [hcur]
    exact h.freshAlloc hl
  obtain ⟨c, K, s', hinv, hres⟩ := hforks.done_of_room hb hslot (h.room hl)
  have hdup := hinv.duplicated hact.inv.covered hlive hslot
  have hproc : (forked s' 1).ptable 2 = s.ptable 2 := hdup.procs 2 (by decide)
  refine ⟨_, hres, ?_, ?_, hproc, ?_, agree_of_used hact.inv.covered (hcur ▸ hlive) hdup.mem⟩
  · have hnew : X ∉ [] ++ K ++ tables s'.mem 3 c := by
      intro hmem
      have h0 : s.pages X = 0 := (hinv.fresh X hmem).1
      rw [h255] at h0
      cases h0
    have hshares : shares (forkBase s 1 c).mem (s.root s.current) 768 = [X] := by
      rw [hcur]
      exact h.shares_eq hl
    change s'.pages X = 0
    rw [hinv.pages, List.count_append, List.count_eq_zero_of_not_mem hnew, hshares,
      List.count_singleton_self]
    change s.pages X + _ = 0
    rw [h255]
    rfl
  · change s'.current = 2
    rw [hinv.rest]
    exact hcur
  · rw [State.root, State.root, hproc]

/-- **The last fork** leaves a page that is mapped, and free. -/
theorem Leaked.last (hl : Leaky L m r V X) (h : Leaked L m r V X 254 s) :
    ∃ s', step L s (call SYSCALL_FORK 0) = .ok s' ∧ s'.Live 2 ∧
      userPage s'.mem (s'.root 2) 256 = some X ∧ s'.pages X = 0 := by
  have hV : V * 4096 ≠ 0 := by
    have := hl.viewer.1
    omega
  have hshown := h.turn.shown hV
  obtain ⟨s₁, hshow, h₁, -, hkeeps⟩ := h.turn.enter (by rw [hshown]; exact hV)
    { noRegs with rax := SYSCALL_FORK, rdi := 0 }
  rw [hshown] at h₁
  have hleaked := h.keeps (hkeeps 2 List.mem_cons_self) h₁
  obtain ⟨s', hfork, h0, hcur, hproc, hkeeps'⟩ := hleaked.overflow hl
  have hrun : (s'.ptable 2).state = .runnable := by
    rw [hproc]
    exact h₁.active.runnable 2 List.mem_cons_self
  obtain ⟨q, htr, huser, -⟩ := hl.page
  refine ⟨s', step_syscall h.turn.active.spinning hshow (r := some 1) ?_ (fun _ => ?_),
    ⟨by decide, by rw [hrun]; decide⟩, userPage_eq_some.2 ⟨q, ?_, huser⟩, h0⟩
  · rw [dispatch, if_neg (by decide), if_neg (by decide), if_neg (by decide), if_pos rfl, hfork,
      ok_bind]
    rfl
  · rw [hcur]
    exact hrun
  · rw [hkeeps'.translate, hleaked.root, hleaked.agree.translate]
    exact htr

end

end CProj.WeensyOS
