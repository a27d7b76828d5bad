/-
  `syscall_page_alloc`.
-/
import CProj.WeensyOS.Checks

namespace CProj.WeensyOS

variable {L : Layout} {s s' : State} {r addr v n : ℕ} {F new : List ℕ}

/-! ## The call -/

/-- An address at which `syscall_page_alloc` maps a page. -/
def ValidAddr (addr : ℕ) : Prop :=
  addr % PAGESIZE = 0 ∧ PROC_START_ADDR ≤ addr ∧ addr < MEMSIZE_VIRTUAL

instance (addr : ℕ) : Decidable (ValidAddr addr) := inferInstanceAs (Decidable (_ ∧ _))

theorem ValidAddr.page (h : ValidAddr addr) : addr = addr / 4096 * 4096 ∧ 256 ≤ addr / 4096 ∧
    addr / 4096 < 768 := by
  obtain ⟨h1, h2, h3⟩ := h
  rw [PAGESIZE] at h1
  rw [PROC_START_ADDR] at h2
  rw [MEMSIZE_VIRTUAL] at h3
  omega

/-- The state `s'` is `s` after the free pages `F` have been put to use in the table with root `r`,
    or in a page that it maps. -/
structure Extends (L : Layout) (r : ℕ) (s s' : State) (F : List ℕ) : Prop where
  shaped : Shaped s'.mem r
  full : Full s.mem r → Full s'.mem r
  small : Small s.mem r → Small s'.mem r
  mem : ∀ p, p ∉ tables s.mem 3 r → ¬ (Alloc L p ∧ s.pages p = 0) → s'.mem p = s.mem p
  pages : ∀ p, s'.pages p = if p ∈ F then 1 else s.pages p
  nodup : F.Nodup
  fresh : ∀ p ∈ F, s.pages p = 0 ∧ Alloc L p
  rest : s' = { s with mem := s'.mem, pages := s'.pages }

/-- The ways in which `syscall_page_alloc` ends. -/
inductive PageAllocs (L : Layout) (s : State) (r addr : ℕ) : Except Fault (ℤ × State) → Prop
  /-- the address is not valid, or there is no page -/
  | refused (h : ¬ ValidAddr addr ∨ firstFree L s.pages = none) : PageAllocs L s r addr (.ok (-1, s))
  /-- the table does not grant access, or maps a large page -/
  | fault (hv : ValidAddr addr)
    (h : pwu (stop s.mem r (addr / 4096)).perm ≠ 7 ∨ 0 < (stop s.mem r (addr / 4096)).level ∧
      translate s.mem r (addr / 4096) ≠ none) :
    PageAllocs L s r addr (.error .assertion)
  /-- there is no memory for a table -/
  | stuck {new : List ℕ} {s' : State} (hv : ValidAddr addr) (hl : 0 < (stop s.mem r (addr / 4096)).level)
    (h : Extends L r s s' new)
    (hsub : (subtables s'.mem 3 r).Perm (subtables s.mem 3 r ++ new))
    (htr : ∀ w, translate s'.mem r w = translate s.mem r w) : PageAllocs L s r addr (.ok (-1, s'))
  | done {n q : ℕ} {new : List ℕ} {s' : State} (hv : ValidAddr addr) (hn : firstFree L s.pages = some n)
    (hperm : pwu (stop s.mem r (addr / 4096)).perm = 7)
    (habs : (stop s.mem r (addr / 4096)).level = 0 ∨ translate s.mem r (addr / 4096) = none)
    (h : Extends L r s s' (n :: new))
    (hsub : (subtables s'.mem 3 r).Perm (subtables s.mem 3 r ++ new)) (hzero : ∀ i, s'.mem n i = 0)
    (hhere : translate s'.mem r (addr / 4096) = some (n, q)) (hq : pwu q = 7)
    (hother : ∀ w, Canonical w → w ≠ addr / 4096 → translate s'.mem r w = translate s.mem r w) :
    PageAllocs L s r addr (.ok (0, s'))

/-- The state after the allocation, and the table in it. -/
theorem agree_alloc (hu : TablesUsed s r) (h0 : s.pages n = 0) (w : ℕ) :
    Agree s.mem (s.alloc n w).mem (tables s.mem 3 r) :=
  agree_fill fun hmem => hu n hmem h0

theorem alloc_used (hu : TablesUsed s r) (h0 : s.pages n = 0) (w : ℕ) :
    TablesUsed (s.alloc n w) r := by
  intro p hp
  rw [(agree_alloc hu h0 w).tables] at hp
  change Function.update s.pages n 1 p ≠ 0
  have hpn : p ≠ n := by
    rintro rfl
    exact hu p hp h0
  rw [Function.update_of_ne hpn]
  exact hu p hp

/-- A table that has grown after a page has been allocated. -/
theorem Grown.extends (hu : TablesUsed s r) (hn : firstFree L s.pages = some n)
    (hg : Grown L r (s.alloc n 0) s' new) : Extends L r s s' (n :: new) := by
  obtain ⟨halloc, h0⟩ := firstFree_some hn
  have hagree := agree_alloc hu h0 0
  have hpages : ∀ p, (s.alloc n 0).pages p = if p = n then 1 else s.pages p :=
    fun p => Function.update_apply _ _ _ _
  have hnew : n ∉ new := by
    intro hmem
    have := (hg.fresh n hmem).1
    rw [hpages, if_pos rfl] at this
    cases this
  refine ⟨hg.shaped, fun hf => hg.full (hagree.full hf), fun hs => hg.small (hagree.small hs),
    fun p hp hfree => ?_, fun p => ?_, List.nodup_cons.2 ⟨hnew, hg.nodup⟩,
    fun p hp => ?_, ?_⟩
  · have hpn : p ≠ n := by
      rintro rfl
      exact hfree ⟨halloc, h0⟩
    rw [hg.mem p (by rwa [hagree.tables]) fun hmem => ?_]
    · exact funext fun i => fill_of_ne hpn i
    · obtain ⟨h1, h2⟩ := hg.fresh p hmem
      rw [hpages, if_neg hpn] at h1
      exact hfree ⟨h2, h1⟩
  · rw [hg.pages, hpages]
    simp only [List.mem_cons]
    split_ifs <;> simp_all
  · rcases List.mem_cons.1 hp with rfl | hmem
    · exact ⟨h0, halloc⟩
    · obtain ⟨h1, h2⟩ := hg.fresh p hmem
      have hpn : p ≠ n := by
        rintro rfl
        exact hnew hmem
      rw [hpages, if_neg hpn] at h1
      exact ⟨h1, h2⟩
  · rw [hg.rest]
    rfl

theorem pwu_and_seven {p : ℕ} : pwu 7 &&& p = pwu 7 ↔ pwu p = 7 := by
  rw [show pwu 7 = 7 by decide, Nat.and_comm]
  exact Iff.rfl

theorem not_validAddr : ¬ ValidAddr addr ↔
    addr % PAGESIZE ≠ 0 ∨ addr < PROC_START_ADDR ∨ addr ≥ MEMSIZE_VIRTUAL := by
  rw [ValidAddr]
  omega

/-- The call after its allocation. -/
theorem syscallPageAlloc_eq (hv : ValidAddr addr) (hn : firstFree L s.pages = some n) :
    syscallPageAlloc L s addr = (do
      let it ← Vmiter.create (s.alloc n 0).mem (s.ptable s.current).pagetable addr
      let x ← it.tryMap L (s.alloc n 0) (n * 4096) 7
      if x.1 < 0 then
        let s ← kfree x.2 (n * 4096)
        return (-1, s)
      else return (0, x.2)) := by
  have hgood := mt not_validAddr.2 (not_not.2 hv)
  have hpos : ¬ n * 4096 = 0 := by
    have := (firstFree_some hn).1.pos
    omega
  have hstart : ({ s.alloc n 0xCCCCCCCCCCCCCCCC with
      mem := (s.alloc n 0xCCCCCCCCCCCCCCCC).mem.fill n 0 } : State) = s.alloc n 0 := by
    simp only [State.alloc, fill_fill]
  rw [syscallPageAlloc, if_neg hgood]
  simp only [kalloc_some hn, hpos, if_false, page_div]
  rw [← hstart]
  rfl

section
variable (hu : TablesUsed s r) (hn : firstFree L s.pages = some n) (hv : ValidAddr addr)
  (hg : Grown L r (s.alloc n 0) s' new)
include hu hn hv hg

/-- The page is mapped. -/
theorem pageAllocs_done (hperm₀ : pwu (stop s.mem r (addr / 4096)).perm = 7)
    (habs : (stop s.mem r (addr / 4096)).level = 0 ∨ translate s.mem r (addr / 4096) = none)
    (hl : (stop s'.mem r (addr / 4096)).level = 0)
    (hperm : pwu (stop s'.mem r (addr / 4096)).perm = 7) :
    PageAllocs L s r addr (.ok (0, s'.map r (addr / 4096) n 7)) := by
  obtain ⟨halloc, h0⟩ := firstFree_some hn
  have hagree := agree_alloc hu h0 0
  have hext := hg.extends hu hn
  have hn20 : n < 2 ^ 20 := lt_trans halloc.lt (by decide)
  have hcan : Canonical (addr / 4096) := canonical_of_lt (by have := hv.page; omega)
  have hmem : ∀ p, p ∉ tables s'.mem 3 r → mapped s'.mem r (addr / 4096) n 7 p = s'.mem p := by
    intro p hp
    funext i
    refine set_page_ne ?_ i
    rintro rfl
    exact hp stop_page_mem
  have hnt : n ∉ tables s.mem 3 r := fun hmem => hu n hmem h0
  have hnew : n ∉ new := (List.nodup_cons.1 hext.nodup).1
  refine .done (q := 7 &&& (stop s'.mem r (addr / 4096)).perm) hv hn hperm₀ habs
    ⟨shaped_mapped hg.shaped hl hn20 (by decide), fun hf => (hext.full hf).mapped hg.shaped hl,
      fun hs => (hext.small hs).mapped hg.shaped hl, fun p hp hfree => ?_, hext.pages, hext.nodup,
      hext.fresh, ?_⟩ ?_ (fun i => ?_) ?_ ?_ fun w hw hne => ?_
  · refine (hmem p fun ht => ?_).trans (hext.mem p hp hfree)
    rcases hg.mem_tables.1 ht with ht | ht
    · exact hp (hagree.tables ▸ ht)
    · obtain ⟨h1, h2⟩ := hext.fresh p (List.mem_cons_of_mem n ht)
      exact hfree ⟨h2, h1⟩
  · rw [State.map]
    simp only
    rw [hext.rest]
  · change (subtables (mapped s'.mem r (addr / 4096) n 7) 3 r).Perm _
    rw [subtables_mapped hg.shaped hl, ← hagree.subtables]
    exact hg.subtables
  · change mapped s'.mem r (addr / 4096) n 7 n i = 0
    have hnt' : n ∉ tables s'.mem 3 r := by
      rw [hg.mem_tables, hagree.tables]
      exact not_or.2 ⟨hnt, hnew⟩
    rw [hmem n hnt', hg.mem n (by rw [hagree.tables]; exact hnt) hnew]
    exact fill_self
  · change translate (mapped s'.mem r (addr / 4096) n 7) r (addr / 4096) = _
    rw [translate_mapped hg.shaped hl hn20 (by decide), if_pos (by decide)]
  · rw [(pwu_and_full hperm 7).2]
    decide
  · exact (translate_mapped_other hg.shaped hl hcan hw hne).trans
      ((hg.translate w).trans hagree.translate)

/-- The page is given back. -/
theorem pageAllocs_stuck (hl : 0 < (stop s.mem r (addr / 4096)).level) :
    PageAllocs L s r addr (do
      let s ← kfree s' (n * 4096)
      return (-1, s)) := by
  obtain ⟨halloc, h0⟩ := firstFree_some hn
  have hagree := agree_alloc hu h0 0
  have hext := hg.extends hu hn
  have hone : s'.pages n = 1 := by rw [hext.pages, if_pos List.mem_cons_self]
  have hnew : n ∉ new := (List.nodup_cons.1 hext.nodup).1
  rw [kfree_eq halloc.pos halloc.lt (by rw [hone]; decide), ok_bind]
  refine .stuck hv hl ⟨hg.shaped, hext.full, hext.small, hext.mem, fun p => ?_,
    (List.nodup_cons.1 hext.nodup).2, fun p hp => hext.fresh p (List.mem_cons_of_mem n hp), ?_⟩ ?_
    fun w => (hg.translate w).trans hagree.translate
  · change Function.update s'.pages n _ p = _
    rw [Function.update_apply]
    by_cases hp : p = n
    · rw [if_pos hp, hp, if_neg hnew, hone, h0]
      rfl
    · rw [if_neg hp, hext.pages]
      simp only [List.mem_cons, hp, false_or]
  · simp only
    rw [hext.rest]
  · rw [← hagree.subtables]
    exact hg.subtables

end

/-- **`syscall_page_alloc`** ends in one of these ways. -/
theorem syscallPageAlloc_spec (addr : ℕ) (hr : (s.ptable s.current).pagetable = r * 4096)
    (hs : Shaped s.mem r)
    (hu : TablesUsed s r) : PageAllocs L s r addr (syscallPageAlloc L s addr) := by
  by_cases hv : ValidAddr addr
  swap
  · rw [syscallPageAlloc, if_pos (not_validAddr.1 hv)]
    exact .refused (Or.inl hv)
  cases hn : firstFree L s.pages with
  | none =>
    rw [syscallPageAlloc, if_neg (mt not_validAddr.2 (not_not.2 hv))]
    simp only [kalloc_none hn]
    exact .refused (Or.inr hn)
  | some n =>
    obtain ⟨halloc, h0⟩ := firstFree_some hn
    obtain ⟨haddr, hlo, hhi⟩ := hv.page
    have hagree := agree_alloc hu h0 0
    have hshaped := hagree.shaped hs
    have hcreate : Vmiter.create (s.alloc n 0).mem (r * 4096) addr =
        .ok (vmiterAt (s.alloc n 0).mem r (addr / 4096 * 4096)) := by
      rw [← haddr]
      exact create_eq hshaped (canonical_of_lt (by omega)) (by omega)
    rw [syscallPageAlloc_eq hv hn, hr, hcreate, ok_bind]
    have hstop : stop (s.alloc n 0).mem r (addr / 4096) = stop s.mem r (addr / 4096) := hagree.stop
    have hentry : (s.alloc n 0).mem (stop s.mem r (addr / 4096)).page (stop s.mem r (addr / 4096)).idx =
        s.mem (stop s.mem r (addr / 4096)).page (stop s.mem r (addr / 4096)).idx :=
      hagree _ stop_page_mem _
    have hn40 : n < 2 ^ 40 := lt_trans halloc.lt (by decide)
    by_cases hperm : pwu (stop s.mem r (addr / 4096)).perm = 7
    swap
    · rw [tryMap_denied hn40 (by decide) (by rw [hstop, pwu_and_seven]; exact hperm)]
      exact .fault hv (Or.inl hperm)
    have hgrant : pwu 7 &&& (stop (s.alloc n 0).mem r (addr / 4096)).perm = pwu 7 := by
      rw [hstop, pwu_and_seven]
      exact hperm
    by_cases hlarge : 0 < (stop s.mem r (addr / 4096)).level ∧
      translate s.mem r (addr / 4096) ≠ none
    · rw [tryMap_large hn40 (by decide) hgrant (by rw [hstop]; exact hlarge.1) ?_]
      · exact .fault hv (Or.inr hlarge)
      · rw [hstop, hentry]
        by_contra hp
        exact hlarge.2 (if_neg hp)
    have habs : (stop s.mem r (addr / 4096)).level = 0 ∨
        translate s.mem r (addr / 4096) = none := by
      by_contra hne
      push Not at hne
      exact hlarge ⟨Nat.pos_of_ne_zero hne.1, hne.2⟩
    obtain ⟨s₁, new, hg, -, hpwu, hlen, ⟨hl, hok⟩ | ⟨⟨hl, -⟩, hfail⟩⟩ :=
      tryMap_spec (I := fun _ => True) (fun _ _ _ _ _ _ => trivial) trivial hshaped (alloc_used hu h0 0)
        hn40 (by decide) hgrant (by decide)
        (fun hpos => by
          rw [hstop] at hpos ⊢
          rw [hentry]
          exact translate_eq_none (habs.resolve_left hpos.ne'))
    · rw [hok, ok_bind]
      refine pageAllocs_done hu hn hv hg hperm habs hl ?_
      rw [hpwu, hstop]
      exact hperm
    · rw [hfail, ok_bind]
      refine pageAllocs_stuck hu hn hv hg ?_
      rw [← hstop]
      omega

/-! ## The references after the call -/

section
variable {i j : ℕ}

theorem Extends.toNat_pages (h : Extends L r s s' F) (p : ℕ) :
    (s'.pages p).toNat = (s.pages p).toNat + F.count p := by
  rw [h.pages]
  split_ifs with hp
  · rw [(h.fresh p hp).1, List.count_eq_one_of_mem h.nodup hp]
    rfl
  · rw [List.count_eq_zero_of_not_mem hp, Nat.add_zero]

/-- The tables of the other processes do not change. -/
theorem Extends.agree (h : Extends L (s.root j) s s' F) (ht : TreeShaped s) (hcov : Covered s)
    (hj : s.Live j) (hi : s.Live i) (hne : i ≠ j) :
    Agree s.mem s'.mem (tables s.mem 3 (s.root i)) := by
  intro p hp k
  rw [h.mem p (ht.disjoint i j hi hj hne hp) fun hfree => hcov.tables hi p hp hfree.2]

theorem Extends.uses_count (h : Extends L (s.root j) s s' F) (ht : TreeShaped s) (hcov : Covered s)
    (hj : s.Live j) (p : ℕ) : s'.uses.count p + (owned s.mem (s.root j)).count p =
      s.uses.count p + (owned s'.mem (s.root j)).count p := by
  have hptable : s'.ptable = s.ptable := by rw [h.rest]
  have hview : s'.viewer = s.viewer := by rw [h.rest]
  have hcount := WeensyOS.uses_count hj.1 hview
    (fun i hi hne => holds_congr (by rw [hptable]) (fun hl => h.agree ht hcov hj hl hne) hi) p
  have hholds : s'.holds j = owned s'.mem (s.root j) := by
    rw [State.holds, State.root, State.root, hptable, if_neg hj.2]
  rwa [holds_of_live hj, hholds] at hcount

end

/-- What the caller refers to after a page has been mapped: the new page in place of the one that
    was mapped there, and the new tables. -/
theorem owned_count_done {v q : ℕ} (hlo : 256 ≤ v) (hhi : v < 768)
    (hsub : (subtables s'.mem 3 r).Perm (subtables s.mem 3 r ++ new))
    (hhere : translate s'.mem r v = some (n, q)) (hq : pwu q = 7)
    (hother : ∀ w, Canonical w → w ≠ v → translate s'.mem r w = translate s.mem r w) (p : ℕ) :
    (owned s'.mem r).count p + (userPage s.mem r v).toList.count p =
      (owned s.mem r).count p + (n :: new).count p := by
  have huser : userPage s'.mem r v = some n := by
    refine userPage_eq_some.2 ⟨q, hhere, ?_⟩
    rw [← isUser_pwu, hq]
    decide
  have hprocs : (procPages s'.mem r ++ (userPage s.mem r v).toList).Perm (procPages s.mem r ++ [n]) := by
    unfold procPages userPages
    have hperm := flatMap_exchange_perm (f := fun w => (userPage s.mem r w).toList)
      (g := fun w => (userPage s'.mem r w).toList) (j := v) (l := List.range' 256 512) List.nodup_range'
      (List.mem_range'_1.2 ⟨hlo, hhi⟩) fun w hw hne => by
        have hw' := (List.mem_range'_1.1 hw).2
        rw [userPage_congr (hother w (canonical_of_lt (by omega)) hne)]
    rw [huser] at hperm
    exact hperm
  have h1 := hprocs.count_eq p
  have h2 := hsub.count_eq p
  simp only [List.count_append] at h1 h2
  simp only [owned, List.count_append, List.count_cons, List.count_nil] at h1 ⊢
  omega

theorem owned_count_stuck (hsub : (subtables s'.mem 3 r).Perm (subtables s.mem 3 r ++ new))
    (htr : ∀ w, translate s'.mem r w = translate s.mem r w) (p : ℕ) :
    (owned s'.mem r).count p = (owned s.mem r).count p + new.count p := by
  have h2 := hsub.count_eq p
  rw [List.count_append] at h2
  rw [owned, owned, procPages_congr fun w _ => htr w]
  simp only [List.count_append]
  omega

/-! ## What the call should do -/

/-- A call that returns 0 has mapped a page that was free, empty, and has released the page that
    the caller could access at that address before. -/
structure PageAlloced (L : Layout) (s s' : State) (addr : ℕ) : Prop where
  valid : ValidAddr addr
  mapped : ∃ n q, translate s'.mem (s.root s.current) (addr / 4096) = some (n, q) ∧ pwu q = 7 ∧
    Alloc L n ∧ s.pages n = 0 ∧ ∀ k, s'.mem n k = 0
  others : ∀ i, s.Live i → ∀ v, Canonical v → i ≠ s.current ∨ v ≠ addr / 4096 →
    translate s'.mem (s.root i) v = translate s.mem (s.root i) v
  released : ∀ n, userPage s.mem (s.root s.current) (addr / 4096) = some n →
    (s'.pages n).toNat + 1 = (s.pages n).toNat

/-- A call that returns -1 has changed no translation, and only counts of tables that the caller's
    table now links. -/
structure PageRefused (s s' : State) : Prop where
  translate : ∀ i, s.Live i → ∀ v, Canonical v →
    translate s'.mem (s.root i) v = translate s.mem (s.root i) v
  pages : ∀ p, s'.pages p ≠ s.pages p → p ∈ subtables s'.mem 3 (s.root s.current)

/-- The specification of `syscall_page_alloc` for the argument `addr`. -/
def PageAllocSpec (L : Layout) (s : State) (addr : ℕ) : Prop :=
  ∀ k s', syscallPageAlloc L s addr = .ok (k, s') →
    (k = 0 → PageAlloced L s s' addr) ∧ (k = -1 → PageRefused s s') ∧ Exact s'

/-- There is a page for the call, and the caller can already access a page of 4 KiB at the address,
    in a table whose links grant everything. -/
def Remaps (L : Layout) (s : State) (addr : ℕ) : Prop :=
  ValidAddr addr ∧ firstFree L s.pages ≠ none ∧
    userPage s.mem (s.root s.current) (addr / 4096) ≠ none ∧
    (stop s.mem (s.root s.current) (addr / 4096)).level = 0 ∧
    pwu (stop s.mem (s.root s.current) (addr / 4096)).perm = 7

theorem Exact.extends (hx : Exact s) (h : Extends L r s s' F)
    (hcount : ∀ p, s'.uses.count p = s.uses.count p + F.count p) : Exact s' := by
  intro p
  have hp := hx p
  rw [hcount, h.toNat_pages]
  split_ifs at hp ⊢ with hlt
  · omega
  · have hF : p ∉ F := fun hmem => hlt (h.fresh p hmem).2.lt
    rw [List.count_eq_zero_of_not_mem hF]
    omega

theorem pageRefused_refl : PageRefused s s :=
  ⟨fun _ _ _ _ => rfl, fun _ hp => absurd rfl hp⟩

section
variable (hx : Exact s) (ht : TreeShaped s) (hlive : s.Live s.current)
include hx ht hlive

/-- The page that is replaced keeps its reference. -/
theorem Remaps.not_spec (h : Remaps L s addr) : ¬ PageAllocSpec L s addr := by
  intro hmeets
  obtain ⟨hv, hfree, huser, hlevel, hperm⟩ := h
  have hcov := hx.covered
  obtain ⟨old, hold⟩ := Option.ne_none_iff_exists'.1 huser
  have hspec := syscallPageAlloc_spec (L := L) addr (ht.pagetable hlive)
    (ht.shaped _ hlive) (hcov.tables hlive)
  generalize hres : syscallPageAlloc L s addr = res at hspec
  cases hspec with
  | refused h => exact h.elim (fun h => h hv) hfree
  | fault _ h => exact h.elim (fun h => h hperm) fun h => h.1.ne' hlevel
  | stuck _ hl _ _ _ => omega
  | @done n q new s' _ _ _ _ h _ _ _ _ _ =>
    have hlost := ((hmeets 0 s' hres).1 rfl).released old hold
    obtain ⟨hlo, hhi⟩ := hv.page.2
    have hused : s.pages old ≠ 0 :=
      hcov _ hlive old (mem_owned.2 (Or.inl (mem_procPages.2 ⟨_, hlo, hhi, hold⟩)))
    rw [h.pages, if_neg fun hmem => hused (h.fresh old hmem).1] at hlost
    omega

theorem pageAllocSpec_of_not_remaps (hnot : ¬ Remaps L s addr) : PageAllocSpec L s addr := by
  intro k s' hres
  have hcov := hx.covered
  have hspec := syscallPageAlloc_spec (L := L) addr (ht.pagetable hlive)
    (ht.shaped _ hlive) (hcov.tables hlive)
  rw [hres] at hspec
  generalize hok : (Except.ok (k, s') : Except Fault (ℤ × State)) = res at hspec
  cases hspec with
  | refused _ =>
    cases hok
    exact ⟨fun h0 => absurd h0 (by decide), fun _ => pageRefused_refl, hx⟩
  | fault _ _ => cases hok
  | @stuck new _ hv hl h hsub htr =>
    cases hok
    have hcount : ∀ p, s'.uses.count p = s.uses.count p + new.count p := by
      intro p
      have h1 := h.uses_count ht hcov hlive p
      have h2 := owned_count_stuck hsub htr p
      omega
    refine ⟨fun h0 => absurd h0 (by decide), fun _ => ⟨fun i hi v _ => ?_, fun p hp => ?_⟩,
      hx.extends h hcount⟩
    · by_cases hne : i = s.current
      · rw [hne, htr]
      · exact (h.agree ht hcov hlive hi hne).translate
    · have hmem : p ∈ new := by
        by_contra hp'
        exact hp (by rw [h.pages, if_neg hp'])
      exact hsub.mem_iff.2 (List.mem_append_right _ hmem)
  | @done n q new _ hv hn hperm habs h hsub hzero hhere hq hother =>
    cases hok
    obtain ⟨hlo, hhi⟩ := hv.page.2
    have hnone : userPage s.mem (s.root s.current) (addr / 4096) = none := by
      by_contra huser
      rcases habs with hl | hnone
      · exact hnot ⟨hv, by rw [hn]; exact Option.some_ne_none n, huser, hl, hperm⟩
      · exact huser (by rw [userPage, hnone])
    have hcount : ∀ p, s'.uses.count p = s.uses.count p + (n :: new).count p := by
      intro p
      have h1 := h.uses_count ht hcov hlive p
      have h2 := owned_count_done hlo hhi hsub hhere hq hother p
      rw [hnone, Option.toList_none, List.count_nil] at h2
      omega
    obtain ⟨hn0, halloc⟩ := h.fresh n List.mem_cons_self
    refine ⟨fun _ => ⟨hv, ⟨n, q, hhere, hq, halloc, hn0, hzero⟩, fun i hi v hvc hne => ?_,
      fun old hold => ?_⟩, fun h0 => absurd h0 (by decide), hx.extends h hcount⟩
    · by_cases hcur : i = s.current
      · rw [hcur]
        exact hother v hvc (hne.resolve_left fun hne => hne hcur)
      · exact (h.agree ht hcov hlive hi hcur).translate
    · rw [hnone] at hold
      cases hold

/-- **`syscall_page_alloc` meets its specification** unless it replaces a page. -/
theorem syscallPageAlloc_meets_iff : PageAllocSpec L s addr ↔ ¬ Remaps L s addr :=
  ⟨fun h hr => hr.not_spec hx ht hlive h, pageAllocSpec_of_not_remaps hx ht hlive⟩

end

/-- A process that maps one page, at `PROC_START_ADDR`. -/
def onePage : State :=
  stateOf [(1, 1)] (tableMem 1 fun v => if v = 256 then 6 * 4096 + 7 else 0)
    fun p => if 1 ≤ p ∧ p ≤ 6 then 1 else 0

theorem onePage_exact : Exact onePage := exact_of_check (by decide +kernel)

theorem onePage_treeShaped : TreeShaped onePage := stateOf_treeShaped (by decide +kernel)

theorem syscallPageAlloc_meets_onePage : PageAllocSpec smallKernel onePage 0x101000 ↔
    ¬ Remaps smallKernel onePage 0x101000 :=
  syscallPageAlloc_meets_iff onePage_exact onePage_treeShaped (by decide)

/-- The second page that is mapped at `PROC_START_ADDR` does not release the first. -/
theorem pageAlloc_keeps_replaced :
    Exact onePage ∧ TreeShaped onePage ∧ onePage.Live onePage.current ∧
    ¬ PageAllocSpec smallKernel onePage PROC_START_ADDR := by
  have hremaps : Remaps smallKernel onePage PROC_START_ADDR :=
    ⟨by decide, by decide +kernel, by decide +kernel, by decide +kernel, by decide +kernel⟩
  exact ⟨onePage_exact, onePage_treeShaped, by decide,
    hremaps.not_spec onePage_exact onePage_treeShaped (by decide)⟩

end CProj.WeensyOS
