/-
  The kernel's own page table.

  `init_kernel_memory` and the loop of `kernel` work on the five pages of `kernel_pagetable`.  The
  memory that they leave is `kernelMem`, in which only the entries of the table for physical memory
  are open: no loop links a table, so each of them is one list of stores (`mapPhysical_eq`).
-/
import CProj.WeensyOS.Setup
import CProj.WeensyOS.Invariant
import CProj.WeensyOS.Mapping

namespace CProj.WeensyOS

/-! ## The five pages -/

/-- The memory with `kernel_pagetable` in place; `e` are the entries for physical memory. -/
def kernelMem (L : Layout) (m : Mem) (e : ℕ → ℕ) : Mem := fun p i =>
  let k := kernelRoot L
  if p = k then if i = 0 then (k + 1) * 4096 + 7 else 0
  else if p = k + 1 then
    if i = 0 then (k + 2) * 4096 + 7 else if i ≤ 3 then i * 2 ^ 30 + 0x83 else 0
  else if p = k + 2 then if i < 2 then (k + 3 + i) * 4096 + 7 else 0
  else if p = k + 3 then e i
  else if p = k + 4 then 0
  else m p i

variable {L : Layout} {m : Mem} {e : ℕ → ℕ} {s : State} {i w v : ℕ}

/-- The pages of `kernel_pagetable` lie below the kernel's stack. -/
theorem kernelRoot_bounds (L : Layout) : 64 ≤ kernelRoot L ∧ kernelRoot L + 5 ≤ 127 ∧
    kernelRoot L * 4096 = L.kernelPagetable := by
  have h1 := L.end_le
  have h2 := L.pagetable_aligned
  obtain ⟨h3, h4⟩ := L.pagetable_in
  simp only [KERNEL_STACK_TOP, KERNEL_START_ADDR, PAGESIZE] at h1 h2 h3 h4
  rw [kernelRoot, PAGESIZE]
  omega

section
variable (L m e)

theorem kernelMem_0 (i : ℕ) : kernelMem L m e (kernelRoot L) i =
    if i = 0 then (kernelRoot L + 1) * 4096 + 7 else 0 := if_pos rfl

theorem kernelMem_1 (i : ℕ) : kernelMem L m e (kernelRoot L + 1) i =
    if i = 0 then (kernelRoot L + 2) * 4096 + 7 else if i ≤ 3 then i * 2 ^ 30 + 0x83 else 0 := by
  rw [kernelMem, if_neg (by omega), if_pos rfl]

theorem kernelMem_2 (i : ℕ) : kernelMem L m e (kernelRoot L + 2) i =
    if i < 2 then (kernelRoot L + 3 + i) * 4096 + 7 else 0 := by
  rw [kernelMem, if_neg (by omega), if_neg (by omega), if_pos rfl]

theorem kernelMem_3 (i : ℕ) : kernelMem L m e (kernelRoot L + 3) i = e i := by
  rw [kernelMem, if_neg (by omega), if_neg (by omega), if_neg (by omega), if_pos rfl]

theorem kernelMem_4 (i : ℕ) : kernelMem L m e (kernelRoot L + 4) i = 0 := by
  rw [kernelMem, if_neg (by omega), if_neg (by omega), if_neg (by omega), if_neg (by omega),
    if_pos rfl]

end

theorem page_or_link (n : ℕ) : n * PAGESIZE ||| PTE_P ||| PTE_W ||| PTE_U = n * 4096 + 7 := by
  rw [Nat.or_assoc, Nat.or_assoc]
  exact page_or_perm (by decide)

theorem kernelLinks_eq : kernelLinks L m = kernelMem L m fun _ => 0 := by
  funext p i
  have hk : L.kernelPagetable / PAGESIZE = kernelRoot L := rfl
  unfold kernelMem
  simp only [kernelLinks, page_or_link, hk, Mem.set, Mem.fill,
    show List.range 5 = [0, 1, 2, 3, 4] from rfl, List.foldl_cons, List.foldl_nil, Nat.add_zero]
  generalize kernelRoot L = k
  rcases (by omega : p = k ∨ p = k + 1 ∨ p = k + 2 ∨ p = k + 3 ∨ p = k + 4 ∨
    (p < k ∨ k + 4 < p)) with
    rfl | rfl | rfl | rfl | rfl | hp
  · simp
  · rcases (by omega : i = 0 ∨ i = 1 ∨ i = 2 ∨ i = 3 ∨ 3 < i) with rfl | rfl | rfl | rfl | hi
    · simp
    · simp
      decide
    · simp
      decide
    · simp
      decide
    · simp only [show ¬ i = 0 by omega, show ¬ i = 1 by omega, show ¬ i = 2 by omega,
        show ¬ i = 3 by omega, show ¬ i ≤ 3 by omega]
      simp
  · rcases (by omega : i = 0 ∨ i = 1 ∨ 1 < i) with rfl | rfl | hi
    · simp
    · simp
    · simp only [show ¬ i = 0 by omega, show ¬ i = 1 by omega, show ¬ i < 2 by omega]
      simp
  · simp
  · simp
  · simp only [show ¬ p = k by omega, show ¬ p = k + 1 by omega, show ¬ p = k + 2 by omega,
      show ¬ p = k + 3 by omega, show ¬ p = k + 4 by omega, false_and, if_false]

/-! ## Its shape -/

theorem not_isLink_zero : ¬ IsLink 0 := by decide

/-- The entries of the large pages of the devices. -/
theorem not_isLink_device (i : ℕ) : ¬ IsLink (i * 2 ^ 30 + 0x83) := by
  rw [isLink_iff]
  omega

/-- Tables all of whose links are among the first `n` entries. -/
theorem subtables_of_links {l t n : ℕ} (hn : n ≤ 512) (h : ∀ i, n ≤ i → ¬ IsLink (m t i)) :
    subtables m (l + 1) t = (List.range n).flatMap (below m l t) := by
  have hrest : ((List.range (512 - n)).map (n + ·)).flatMap (below m l t) = [] := by
    rw [List.flatMap_eq_nil_iff]
    intro i hi
    obtain ⟨j, -, rfl⟩ := List.mem_map.1 hi
    rw [below, if_neg (h _ (Nat.le_add_right n j))]
  rw [subtables_succ, show 512 = n + (512 - n) by omega, List.range_add, List.flatMap_append, hrest,
    List.append_nil]

theorem kernelMem_tables : tables (kernelMem L m e) 3 (kernelRoot L) =
    [kernelRoot L, kernelRoot L + 3, kernelRoot L + 4, kernelRoot L + 2, kernelRoot L + 1] := by
  obtain ⟨-, hk, -⟩ := kernelRoot_bounds L
  have hpage : ∀ n, n ≤ 127 → pageOf (n * 4096 + 7) = n := fun n hn =>
    pageOf_entry (by omega) (by decide)
  have h1 : subtables (kernelMem L m e) 1 (kernelRoot L + 2) =
      [kernelRoot L + 3, kernelRoot L + 4] := by
    rw [subtables_of_links (n := 2) (by decide)]
    · simp only [show List.range 2 = [0, 1] from rfl, List.flatMap_cons, List.flatMap_nil, below,
        kernelMem_2, if_pos (show 0 < 2 by decide), if_pos (show 1 < 2 by decide), isLink_entry,
          if_true,
        hpage _ (show kernelRoot L + 3 + 0 ≤ 127 by omega),
        hpage _ (show kernelRoot L + 3 + 1 ≤ 127 by omega)]
      rfl
    · intro i hi
      rw [kernelMem_2, if_neg (by omega)]
      exact not_isLink_zero
  have h2 : subtables (kernelMem L m e) 2 (kernelRoot L + 1) =
      [kernelRoot L + 3, kernelRoot L + 4, kernelRoot L + 2] := by
    rw [subtables_of_links (n := 1) (by decide)]
    · simp only [show List.range 1 = [0] from rfl, List.flatMap_cons, List.flatMap_nil, below,
        kernelMem_1, if_true, isLink_entry, hpage _ (show kernelRoot L + 2 ≤ 127 by omega), h1]
      rfl
    · intro i hi
      rw [kernelMem_1, if_neg (by omega)]
      split_ifs
      · exact not_isLink_device i
      · exact not_isLink_zero
  rw [tables, subtables_of_links (n := 1) (by decide)]
  · simp only [show List.range 1 = [0] from rfl, List.flatMap_cons, List.flatMap_nil, below,
      kernelMem_0, if_true, isLink_entry, hpage _ (show kernelRoot L + 1 ≤ 127 by omega), h2]
    rfl
  · intro i hi
    rw [kernelMem_0, if_neg (by omega)]
    exact not_isLink_zero

/-- The walk for a page below 4 MiB. -/
theorem kernelMem_stop (hw : w < 1024) :
    stop (kernelMem L m e) (kernelRoot L) w = ⟨0, kernelRoot L + 3 + w / 512, w % 512, 7⟩ := by
  obtain ⟨-, hk, -⟩ := kernelRoot_bounds L
  have h3 : ix w 3 = 0 := by
    simp only [ix, Nat.reducePow]
    omega
  have h2 : ix w 2 = 0 := by
    simp only [ix, Nat.reducePow]
    omega
  have h1 : ix w 1 = w / 512 := by
    simp only [ix, Nat.reducePow]
    omega
  have hand : ∀ n, initialPerm &&& (n * 4096 + 7) = 7 := fun n => by
    rw [Nat.and_comm, entry_and_perm (by decide) (by decide)]
    rfl
  have hand' : ∀ n, 7 &&& (n * 4096 + 7) = 7 := fun n => by
    rw [Nat.and_comm, entry_and_perm (by decide) (by decide)]
    rfl
  rw [stop, walk_link (by rw [h3, kernelMem_0]; exact isLink_entry _), h3, kernelMem_0, if_pos rfl,
    hand,
    pageOf_entry (by omega) (by decide), walk_link (by rw [h2, kernelMem_1]; exact isLink_entry _),
      h2,
    kernelMem_1, if_pos rfl, hand', pageOf_entry (by omega) (by decide),
    walk_link (by rw [h1, kernelMem_2, if_pos (by omega)]; exact isLink_entry _), h1, kernelMem_2,
    if_pos (by omega), hand', pageOf_entry (by omega) (by decide)]
  rw [walk, ix, pow_zero, Nat.div_one]

/-- A walk that ends above level 0 ends at an absent entry or at one of the devices. -/
theorem kernelMem_high (h : 0 < (stop (kernelMem L m e) (kernelRoot L) v).level) :
    kernelMem L m e (stop (kernelMem L m e) (kernelRoot L) v).page
        (stop (kernelMem L m e) (kernelRoot L) v).idx = 0 ∨
      (stop (kernelMem L m e) (kernelRoot L) v).level = 2 ∧ ∃ i ≤ 3,
        kernelMem L m e (stop (kernelMem L m e) (kernelRoot L) v).page
          (stop (kernelMem L m e) (kernelRoot L) v).idx = i * 2 ^ 30 + 0x83 := by
  obtain ⟨-, hk, -⟩ := kernelRoot_bounds L
  rw [stop] at h ⊢
  by_cases h3 : ix v 3 = 0
  swap
  · left
    rw [walk_not_link (by rw [kernelMem_0, if_neg h3]; exact not_isLink_zero), kernelMem_0,
      if_neg h3]
  rw [walk_link (by rw [h3, kernelMem_0]; exact isLink_entry _), h3, kernelMem_0, if_pos rfl,
    pageOf_entry (by omega) (by decide)] at h ⊢
  by_cases h2 : ix v 2 = 0
  swap
  · have hentry : ¬ IsLink (kernelMem L m e (kernelRoot L + 1) (ix v 2)) := by
      rw [kernelMem_1, if_neg h2]
      split_ifs
      · exact not_isLink_device _
      · exact not_isLink_zero
    rw [walk_not_link hentry]
    simp only [kernelMem_1, if_neg h2]
    by_cases h2' : ix v 2 ≤ 3
    · rw [if_pos h2']
      exact Or.inr ⟨trivial, ix v 2, h2', rfl⟩
    · rw [if_neg h2']
      exact Or.inl rfl
  rw [walk_link (by rw [h2, kernelMem_1]; exact isLink_entry _), h2, kernelMem_1, if_pos rfl,
    pageOf_entry (by omega) (by decide)] at h ⊢
  by_cases h1 : ix v 1 < 2
  swap
  · left
    rw [walk_not_link (by rw [kernelMem_2, if_neg h1]; exact not_isLink_zero), kernelMem_2,
      if_neg h1]
  rw [walk_link (by rw [kernelMem_2, if_pos h1]; exact isLink_entry _)] at h
  exact absurd h (lt_irrefl 0)

theorem kernelMem_shaped (he : ∀ i < 512, pageOf (e i) < 2 ^ 20) :
    Shaped (kernelMem L m e) (kernelRoot L) := by
  obtain ⟨-, hk, -⟩ := kernelRoot_bounds L
  have hpage : ∀ n, n ≤ 127 → pageOf (n * 4096 + 7) < 2 ^ 20 := fun n hn => by
    rw [pageOf_entry (by omega) (by decide)]
    omega
  have hzero : pageOf 0 < 2 ^ 20 := by decide
  refine ⟨?_, fun p hp i hi => ?_, fun v hl hp => ?_⟩
  · rw [kernelMem_tables]
    simp
  · rw [kernelMem_tables] at hp
    simp only [List.mem_cons, List.not_mem_nil, or_false] at hp
    rcases hp with rfl | rfl | rfl | rfl | rfl
    · rw [kernelMem_0]
      split_ifs
      exacts [hpage _ (by omega), hzero]
    · rw [kernelMem_3]
      exact he i hi
    · rw [kernelMem_4]
      exact hzero
    · rw [kernelMem_2]
      split_ifs
      exacts [hpage _ (by omega), hzero]
    · rw [kernelMem_1]
      split_ifs
      · exact hpage _ (by omega)
      · rw [pageOf_eq]
        omega
      · exact hzero
  · rcases kernelMem_high hl with h0 | ⟨hl2, i, hi, he'⟩
    · rw [h0] at hp
      cases hp
    · rw [he', hl2, pageOf_eq]
      omega

/-! ## The loops over physical memory -/

/-- Mapping a page for which there is a table. -/
theorem map_leaf {r n q : ℕ} (htree : (tables s.mem 3 r).Nodup) (hl : (stop s.mem r v).level = 0)
    (hn : n < 2 ^ 40) (hq : q % 2 = 1) (hq' : q < 4096)
    (hperm : pwu q &&& (stop s.mem r v).perm = pwu q) :
    (vmiterAt s.mem r (v * 4096)).map L s (n * 4096) q =
      .ok (vmiterAt (s.map r v n q).mem r (v * 4096), s.map r v n q) := by
  have hq0 : ¬ (n * 4096 = NEG_ONE ∧ q = 0) := by omega
  have hit : vmiterAt (s.map r v n q).mem r (v * 4096) = vmiterAt s.mem r (v * 4096) := by
    simp only [vmiterAt, State.map, mapped, stop_set htree hl]
  have htry : (vmiterAt s.mem r (v * 4096)).tryMapIt L s (n * 4096) q =
      .ok (0, vmiterAt s.mem r (v * 4096), s.map r v n q) := by
    rw [Vmiter.tryMapIt]
    simp only [hq0, if_false, tryMapAsserts_ok hn hq hperm, ok_bind, vmiterAt_level, hl,
      Vmiter.tryMapLoop, if_true, vmiterAt_pep, page_or_perm hq']
    rfl
  rw [Vmiter.map, htry, hit]
  rfl

/-- The entries after the first `n` pages have been mapped. -/
def physEntries (perm : ℕ → Option ℕ) (e : ℕ → ℕ) (n : ℕ) : ℕ → ℕ := fun i =>
  if i < n then
    match perm (i * 4096) with
    | some q => i * 4096 + q
    | none => e i
  else e i

/-- The permissions that a loop maps the pages with. -/
def PhysPerm (perm : ℕ → Option ℕ) : Prop :=
  ∀ w < 512, ∀ q, perm (w * 4096) = some q → q % 2 = 1 ∧ q < 8

theorem physEntries_bounded {perm : ℕ → Option ℕ} (hperm : PhysPerm perm)
    (he : ∀ i < 512, pageOf (e i) < 2 ^ 20) (n : ℕ) :
    ∀ i < 512, pageOf (physEntries perm e n i) < 2 ^ 20 := by
  intro i hi
  rw [physEntries]
  split_ifs
  · cases hp : perm (i * 4096) with
    | none => exact he i hi
    | some q =>
      have hq := (hperm i hi q hp).2
      simp only
      rw [pageOf_entry (by omega) (by omega)]
      omega
  · exact he i hi

theorem physEntries_succ {perm : ℕ → Option ℕ} (n : ℕ) : physEntries perm e (n + 1) =
    match perm (n * 4096) with
    | some q => Function.update (physEntries perm e n) n (n * 4096 + q)
    | none => physEntries perm e n := by
  funext i
  cases hp : perm (n * 4096) with
  | none =>
    simp only [physEntries]
    rcases Nat.lt_trichotomy i n with hi | rfl | hi
    · rw [if_pos hi, if_pos (by omega)]
    · rw [if_pos (by omega), if_neg (lt_irrefl _), hp]
    · rw [if_neg (by omega), if_neg (by omega)]
  | some q =>
    simp only [Function.update_apply, physEntries]
    rcases Nat.lt_trichotomy i n with hi | rfl | hi
    · rw [if_pos (show i < n + 1 by omega), if_neg hi.ne, if_pos hi]
    · rw [if_pos (Nat.lt_succ_self i), if_pos rfl, hp]
    · rw [if_neg (show ¬ i < n + 1 by omega), if_neg hi.ne', if_neg (show ¬ i < n by omega)]

/-- A store into the table for physical memory. -/
theorem kernelMem_map (hv : v < 512) (n q : ℕ) : mapped (kernelMem L m e) (kernelRoot L) v n q =
    kernelMem L m (Function.update e v (n * 4096 + q)) := by
  rw [mapped, kernelMem_stop (by omega), Nat.div_eq_of_lt hv, Nat.mod_eq_of_lt hv, Nat.add_zero]
  funext p i
  by_cases hp : p = kernelRoot L + 3
  · subst hp
    rw [kernelMem_3, Function.update_apply]
    by_cases hi : i = v
    · rw [hi, set_self, if_pos rfl]
    · rw [set_of_ne fun h => hi h.2, kernelMem_3, if_neg hi]
  · rw [set_page_ne hp, kernelMem, kernelMem]
    simp only [hp, if_false]

@[simp] theorem vmiterAt_va {r va : ℕ} : (vmiterAt m r va).va = va := rfl

theorem mapPage_eq {perm : ℕ → Option ℕ} (hperm : PhysPerm perm)
    (he : ∀ i < 512, pageOf (e i) < 2 ^ 20) {n : ℕ} (hn : n < 512) :
    mapPage L perm (vmiterAt (kernelMem L m (physEntries perm e n)) (kernelRoot L) (n * 4096))
        { s with mem := kernelMem L m (physEntries perm e n) } =
      .ok (vmiterAt (kernelMem L m (physEntries perm e (n + 1))) (kernelRoot L) (n * 4096),
        { s with mem := kernelMem L m (physEntries perm e (n + 1)) }) := by
  rw [mapPage, vmiterAt_va, physEntries_succ]
  cases hp : perm (n * 4096) with
  | none => rfl
  | some q =>
    obtain ⟨hodd, hlt⟩ := hperm n hn q hp
    have hstop := kernelMem_stop (L := L) (m := m) (e := physEntries perm e n) (w := n) (by omega)
    have hgrant : pwu q &&& 7 = pwu q := by
      rw [pwu_eq, show 7 = 2 ^ 3 - 1 by rfl, Nat.and_two_pow_sub_one_eq_mod, Nat.mod_mod]
    have hshaped := kernelMem_shaped (L := L) (m := m) (physEntries_bounded hperm he n)
    have hmap := map_leaf (L := L) (s := { s with mem := kernelMem L m (physEntries perm e n) })
      (v := n)
      (n := n) hshaped.tree (by rw [hstop]) (by omega) hodd (by omega) (by rw [hstop]; exact hgrant)
    simp only [State.map, kernelMem_map hn] at hmap
    exact hmap

/-- **A loop over physical memory** stores one entry for each page that it maps. -/
theorem mapPhysical_eq {perm : ℕ → Option ℕ} (hperm : PhysPerm perm)
    (he : ∀ i < 512, pageOf (e i) < 2 ^ 20) (j : ℕ) : ∀ n, j + n = 512 →
    mapPhysical L perm (j + 1) (vmiterAt (kernelMem L m (physEntries perm e n)) (kernelRoot L) (n * 4096))
        { s with mem := kernelMem L m (physEntries perm e n) } =
      .ok { s with mem := kernelMem L m (physEntries perm e 512) } := by
  induction j with
  | zero =>
    intro n hn
    obtain rfl : n = 512 := by omega
    rw [mapPhysical, if_neg]
    rw [vmiterAt_va, MEMSIZE_PHYSICAL]
    omega
  | succ j ih =>
    intro n hn
    have hnext : vaAdd (n * 4096) PAGESIZE = (n + 1) * 4096 := by
      rw [vaAdd, PAGESIZE]
      omega
    rw [mapPhysical, if_pos]
    · rw [mapPage_eq hperm he (by omega), ok_bind]
      simp only [Vmiter.advance, Vmiter.find, vmiterAt_va]
      rw [hnext, realFind_eq (kernelMem_shaped (physEntries_bounded hperm he (n + 1)))
        (canonical_of_lt (by omega)) (by omega), ok_bind]
      exact ih (n + 1) (by omega)
    · rw [vmiterAt_va, MEMSIZE_PHYSICAL]
      omega

/-! ## What `kernel` leaves -/

theorem initPerm_physPerm : PhysPerm initPerm := by
  intro w _ q hq
  rw [initPerm] at hq
  split_ifs at hq
  cases hq
  decide

/-- The permissions of the page `w` of physical memory. -/
def physPerm (w : ℕ) : ℕ := if w < 256 then kernelPerm w else 7

theorem kernelPagePerm_eq (hw : w < 512) : kernelPagePerm (w * 4096) = some (physPerm w) := by
  have hcon : CONSOLE_PAGE * 4096 = CONSOLE_ADDR := by decide
  rw [kernelPagePerm, physPerm, kernelPerm]
  by_cases hlow : w < 256
  · by_cases hc : w = CONSOLE_PAGE
    · rw [if_neg (by rw [hc, hcon]; exact fun h => h.2 rfl), if_pos (by rw [hc]; decide),
        if_pos hlow, if_pos hc]
      rfl
    · rw [if_pos, if_pos hlow, if_neg hc]
      · rfl
      · refine ⟨?_, fun h => hc ?_⟩
        · rw [PROC_START_ADDR]
          omega
        · rw [← hcon] at h
          omega
  · rw [if_neg, if_pos (by omega), if_neg hlow]
    · rfl
    · rintro ⟨h, -⟩
      rw [PROC_START_ADDR] at h
      omega

theorem physPerm_bits (w : ℕ) : physPerm w % 2 = 1 ∧ physPerm w < 8 := by
  rw [physPerm, kernelPerm]
  split_ifs <;> decide

theorem kernelPagePerm_physPerm : PhysPerm kernelPagePerm := by
  intro w hw q hq
  rw [kernelPagePerm_eq hw] at hq
  cases hq
  exact physPerm_bits w

/-- The entries for physical memory that `kernel` leaves. -/
def kernelEntries : ℕ → ℕ := fun i => if i < 512 then i * 4096 + physPerm i else 0

/-- **The kernel's page table** is the same whatever was in memory. -/
theorem kernelMemory_eq (L : Layout) (s : State) :
    kernelMemory L s = .ok { s with mem := kernelMem L s.mem kernelEntries } := by
  obtain ⟨-, -, hk⟩ := kernelRoot_bounds L
  have h0 : ∀ i < 512, pageOf ((fun _ => 0 : ℕ → ℕ) i) < 2 ^ 20 :=
    fun _ _ => show pageOf 0 < 2 ^ 20 by decide
  have h1 := physEntries_bounded initPerm_physPerm h0 512
  -- both loops start at the address 0
  have hstart : ∀ {e : ℕ → ℕ} {perm : ℕ → Option ℕ},
      PhysPerm perm → (∀ i < 512, pageOf (e i) < 2 ^ 20) →
      (do let it ← Vmiter.create (kernelMem L s.mem e) L.kernelPagetable 0
          mapPhysical L perm (NPAGES + 1) it { s with mem := kernelMem L s.mem e }) =
        .ok { s with mem := kernelMem L s.mem (physEntries perm e 512) } := by
    intro e perm hperm he
    have hzero : physEntries perm e 0 = e := rfl
    rw [← hk, create_eq (kernelMem_shaped he) (by decide) (by decide), ok_bind]
    have hloop := mapPhysical_eq (L := L) (m := s.mem) (s := s) hperm he 512 0 rfl
    rw [hzero, Nat.zero_mul] at hloop
    exact hloop
  have hentries : physEntries kernelPagePerm (physEntries initPerm (fun _ => 0) 512) 512 =
      kernelEntries := by
    funext i
    rw [physEntries, kernelEntries]
    by_cases hi : i < 512
    · rw [if_pos hi, if_pos hi, kernelPagePerm_eq hi]
    · rw [if_neg hi, if_neg hi, physEntries, if_neg hi]
  rw [kernelMemory, initKernelMemory]
  simp only [kernelLinks_eq]
  rw [hstart initPerm_physPerm h0, ok_bind]
  simp only
  rw [hstart kernelPagePerm_physPerm h1, hentries]

theorem kernelEntries_of_lt (hw : w < 512) : kernelEntries w = w * 4096 + physPerm w := if_pos hw

/-- The pages of the kernel's image are not allocated. -/
theorem not_alloc_image {p : ℕ} (hlow : KERNEL_START_ADDR ≤ p * 4096)
    (hp : p * 4096 < L.kernelEnd) :
    ¬ Alloc L p := by
  intro h
  simp only [Alloc, allocatablePhysicalAddress, roundUp, PAGESIZE, Bool.and_eq_true,
    Bool.or_eq_true] at h
  obtain ⟨⟨⟨-, hk⟩, -⟩, -⟩ := h
  rcases hk with hk | hk
  · have := of_decide_eq_true hk
    omega
  · have := of_decide_eq_true hk
    omega

theorem kernelMem_kernelTable (L : Layout) (m : Mem) :
    KernelTable L (kernelMem L m kernelEntries) := by
  obtain ⟨h1, h2, h3⟩ := kernelRoot_bounds L
  have hend := L.pagetable_in.2
  rw [PAGESIZE] at hend
  refine ⟨kernelMem_shaped fun i hi => ?_, fun p hp => ⟨?_, ?_⟩, fun w hw => ?_⟩
  · have hlt := (physPerm_bits i).2
    rw [kernelEntries_of_lt hi, pageOf_entry (by omega) (by omega)]
    omega
  · rw [kernelMem_tables] at hp
    simp only [List.mem_cons, List.not_mem_nil, or_false] at hp
    refine not_alloc_image ?_ (by omega)
    rw [KERNEL_START_ADDR]
    omega
  · rw [kernelMem_tables] at hp
    simp only [List.mem_cons, List.not_mem_nil, or_false] at hp
    have hcon : CONSOLE_PAGE = 184 := rfl
    omega
  · have hw' : w < 512 := hw
    obtain ⟨hodd, hlt⟩ := physPerm_bits w
    have hand : physPerm w &&& 7 = physPerm w := by
      rw [show 7 = 2 ^ 3 - 1 by rfl, Nat.and_two_pow_sub_one_eq_mod]
      exact Nat.mod_eq_of_lt hlt
    refine ⟨physPerm w, ?_, ?_⟩
    · rw [translate, kernelMem_stop (by omega), Nat.div_eq_of_lt hw', Nat.mod_eq_of_lt hw',
        Nat.add_zero]
      simp only [kernelMem_3, kernelEntries_of_lt hw', frame, if_true]
      rw [if_pos (by omega), pageOf_entry (by omega) (by omega),
        entry_and_perm (by omega) (by decide), hand]
    · rw [pwu_eq]
      exact Nat.mod_eq_of_lt hlt

end CProj.WeensyOS
