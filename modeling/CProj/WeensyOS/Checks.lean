/-
  Checking concrete page tables.

  The properties of a page table speak about every virtual page and every entry; the checks of this
  module visit each entry of each table once, and are sound for them.
-/
import Mathlib.Data.List.Sort
import CProj.WeensyOS.Uses

namespace CProj.WeensyOS

variable {m : Mem} {l t r v perm : ℕ}

/-! ## Entries -/

/-- Addresses in entries are below 4 GiB, and large pages are aligned. -/
def entriesOk (m : Mem) : ℕ → ℕ → Bool
  | 0, t => (List.range 512).all fun i => pageOf (m t i) < 2 ^ 20
  | l + 1, t => (List.range 512).all fun i => decide (pageOf (m t i) < 2 ^ 20) &&
    if IsLink (m t i) then entriesOk m l (pageOf (m t i))
    else m t i % 2 == 0 || pageOf (m t i) / 2 * 2 % 512 ^ (l + 1) == 0

theorem entriesOk_bounded (h : entriesOk m l t = true) :
    ∀ p ∈ tables m l t, ∀ i < 512, pageOf (m p i) < 2 ^ 20 := by
  induction l generalizing t with
  | zero =>
    intro p hp i hi
    obtain rfl : p = t := by simpa [tables, subtables] using hp
    rw [entriesOk, List.all_eq_true] at h
    exact of_decide_eq_true (h i (List.mem_range.2 hi))
  | succ l ih =>
    intro p hp i hi
    rw [entriesOk, List.all_eq_true] at h
    rcases List.mem_cons.1 hp with rfl | hp
    · have := Bool.and_eq_true_iff.1 (h i (List.mem_range.2 hi))
      exact of_decide_eq_true this.1
    · obtain ⟨j, hj, hlink, hp⟩ := mem_subtables.1 hp
      have := (Bool.and_eq_true_iff.1 (h j (List.mem_range.2 hj))).2
      rw [if_pos hlink] at this
      exact ih this p hp i hi

theorem entriesOk_large (h : entriesOk m l t = true) (hl : 0 < (walk m v l t perm).level)
    (hp : m (walk m v l t perm).page (walk m v l t perm).idx % 2 = 1) :
    pageOf (m (walk m v l t perm).page (walk m v l t perm).idx) / 2 * 2 %
      512 ^ (walk m v l t perm).level = 0 := by
  induction l generalizing t perm with
  | zero => exact absurd hl (lt_irrefl 0)
  | succ l ih =>
    rw [entriesOk, List.all_eq_true] at h
    have hi := (Bool.and_eq_true_iff.1 (h _ (List.mem_range.2 (ix_lt v (l + 1))))).2
    by_cases hlink : IsLink (m t (ix v (l + 1)))
    · rw [if_pos hlink] at hi
      rw [walk_link hlink] at hl hp ⊢
      exact ih hi hl hp
    · rw [if_neg hlink] at hi
      rw [walk_not_link hlink] at hp ⊢
      simp only at hp ⊢
      simpa [hp] using hi

theorem shaped_of_check (htree : (tables m 3 r).Nodup) (h : entriesOk m 3 r = true) : Shaped m r :=
  ⟨htree, entriesOk_bounded h, fun _ => entriesOk_large h⟩

/-- Every link grants everything, and there are no large pages. -/
def linksOk (m : Mem) : ℕ → ℕ → Bool
  | 0, _ => true
  | l + 1, t => (List.range 512).all fun i =>
    if IsLink (m t i) then m t i % 8 == 7 && linksOk m l (pageOf (m t i)) else m t i % 2 == 0

theorem linksOk_full (h : linksOk m l t = true) (hp : pwu perm = 7) :
    pwu (walk m v l t perm).perm = 7 := by
  induction l generalizing t perm with
  | zero => exact hp
  | succ l ih =>
    rw [linksOk, List.all_eq_true] at h
    have hi := h _ (List.mem_range.2 (ix_lt v (l + 1)))
    by_cases hlink : IsLink (m t (ix v (l + 1)))
    · rw [if_pos hlink, Bool.and_eq_true_iff, beq_iff_eq, ← pwu_eq] at hi
      rw [walk_link hlink]
      refine ih hi.2 ?_
      rw [(pwu_and_full hi.1 perm).2, hp]
    · rw [walk_not_link hlink]
      exact hp

theorem linksOk_small (h : linksOk m l t = true)
    (hp : m (walk m v l t perm).page (walk m v l t perm).idx % 2 = 1) :
    (walk m v l t perm).level = 0 := by
  induction l generalizing t perm with
  | zero => rfl
  | succ l ih =>
    rw [linksOk, List.all_eq_true] at h
    have hi := h _ (List.mem_range.2 (ix_lt v (l + 1)))
    by_cases hlink : IsLink (m t (ix v (l + 1)))
    · rw [if_pos hlink, Bool.and_eq_true_iff] at hi
      rw [walk_link hlink] at hp ⊢
      exact ih hi.2 hp
    · rw [if_neg hlink, beq_iff_eq] at hi
      rw [walk_not_link hlink] at hp
      simp only at hp
      omega

theorem full_of_check (h : linksOk m 3 r = true) : Full m r := fun _ => linksOk_full h (by decide)

theorem small_of_check (h : linksOk m 3 r = true) : Small m r := by
  intro v hp
  refine linksOk_small h ?_
  by_contra he
  exact hp (if_neg he)

/-! ## Present pages -/

/-- The pages below a table that are present, if there are no large pages. -/
def presentPages (m : Mem) : ℕ → ℕ → List ℕ
  | 0, t => (List.range 512).filter fun i => m t i % 2 == 1
  | l + 1, t => (List.range 512).flatMap fun i =>
    if IsLink (m t i) then (presentPages m l (pageOf (m t i))).map fun w => i * 512 ^ (l + 1) + w
    else []

theorem mod_pow_succ (v l : ℕ) :
    v % 512 ^ (l + 2) = ix v (l + 1) * 512 ^ (l + 1) + v % 512 ^ (l + 1) := by
  rw [ix, pow_succ 512 (l + 1), Nat.mod_mul, Nat.add_comm, Nat.mul_comm]

theorem mem_presentPages : ∀ {l t perm : ℕ}, (walk m v l t perm).level = 0 →
    m (walk m v l t perm).page (walk m v l t perm).idx % 2 = 1 →
    v % 512 ^ (l + 1) ∈ presentPages m l t
  | 0, t, perm, _, hp => by
    refine List.mem_filter.2 ⟨List.mem_range.2 (Nat.mod_lt _ (by decide)), ?_⟩
    have hix : v % 512 ^ (0 + 1) = ix v 0 := by simp [ix]
    rw [hix, beq_iff_eq]
    exact hp
  | l + 1, t, perm, hl, hp => by
    have hlink : IsLink (m t (ix v (l + 1))) := by
      by_contra hlink
      rw [walk_not_link hlink] at hl
      cases hl
    rw [walk_link hlink] at hl hp
    refine List.mem_flatMap.2 ⟨ix v (l + 1), List.mem_range.2 (ix_lt v (l + 1)), ?_⟩
    rw [if_pos hlink, mod_pow_succ]
    exact List.mem_map_of_mem (mem_presentPages hl hp)

/-- A page that is mapped is present. -/
theorem present_of_translate (hsmall : Small m r) (hp : translate m r v ≠ none) :
    v % 512 ^ 4 ∈ presentPages m 3 r := by
  have he : m (stop m r v).page (stop m r v).idx % 2 = 1 := by
    by_contra he
    exact hp (if_neg he)
  exact mem_presentPages (hsmall v hp) he

/-- Nothing is mapped above the pages that are present. -/
theorem high_of_check (hsmall : Small m r) {b : ℕ} (h : ∀ w ∈ presentPages m 3 r, w < b)
    (hb : b ≤ 2 ^ 35) (hv : Canonical v) (hge : b ≤ v) : translate m r v = none := by
  by_contra hp
  have hlt := h _ (present_of_translate hsmall hp)
  simp only [Canonical, Nat.reducePow, Nat.reduceSub] at hv hlt hb
  omega

/-- Nothing is mapped below the pages that are present. -/
theorem lowConsole_of_check (hsmall : Small m r) (h : ∀ w ∈ presentPages m 3 r, 256 ≤ w) :
    LowConsole m r := by
  intro w hw n q htr _
  have hge := h _ (present_of_translate hsmall (by rw [htr]; exact Option.some_ne_none _))
  rw [Nat.mod_eq_of_lt (by omega)] at hge
  omega

theorem noWrap_of_check {s : State} {ps : List ℕ} (hps : shares s.mem r 768 = ps)
    (h : ∀ p ∈ ps, (s.pages p).toNat + ps.count p ≤ 255) : NoWrap s r := by
  intro p
  rw [hps]
  by_cases hp : p ∈ ps
  · exact h p hp
  · rw [List.count_eq_zero_of_not_mem hp]
    exact Nat.le_of_lt_succ (s.pages p).toNat_lt

/-! ## Exact counts -/

/-- The references that the counts stand for, in order. -/
def State.counted (s : State) : List ℕ :=
  (List.range NPAGES).flatMap fun p => List.replicate (s.pages p).toNat p

theorem count_flatMap_replicate (f : ℕ → ℕ) (n p : ℕ) :
    ((List.range n).flatMap fun q => List.replicate (f q) q).count p =
      if p < n then f p else 0 := by
  induction n with
  | zero => rfl
  | succ n ih =>
    rw [List.range_succ, List.flatMap_append, List.count_append, ih, List.flatMap_singleton,
      List.count_replicate]
    by_cases h : p = n
    · subst h
      simp
    · have hne : ¬ (n == p) = true := by simpa using Ne.symm h
      rw [if_neg hne, Nat.add_zero]
      exact if_congr (by omega) rfl rfl

/-- The counts are exact if the references, in order, are those that the counts stand for. -/
theorem exact_of_check {s : State} (h : s.uses.insertionSort (· ≤ ·) = s.counted) : Exact s := by
  intro p
  rw [← (List.perm_insertionSort (· ≤ ·) s.uses).count_eq p, h]
  exact count_flatMap_replicate _ _ p

/-! ## Results of system calls -/

/-- The call returns `k`, in a state that passes the check `f`. -/
def returns (res : Except Fault (ℤ × State)) (k : ℤ) (f : State → Bool) : Bool :=
  match res with
  | .ok (k', s) => k' == k && f s
  | .error _ => false

theorem exists_of_returns {res : Except Fault (ℤ × State)} {k : ℤ} {f : State → Bool}
    (h : returns res k f = true) : ∃ s, res = .ok (k, s) ∧ f s = true := by
  match res with
  | .ok (k', s) =>
    obtain ⟨hk, hf⟩ := Bool.and_eq_true_iff.1 h
    exact ⟨s, by rw [beq_iff_eq.1 hk], hf⟩
  | .error e => cases h

/-! ## Small tables -/

/-- A page table in the pages `b` to `b + 4` that maps the virtual page `v < 1024` by the entry
    `e v`. -/
def tableMem (b : ℕ) (e : ℕ → ℕ) : Mem := fun p i =>
  if p = b ∨ p = b + 1 then if i = 0 then (p + 1) * 4096 + 7 else 0
  else if p = b + 2 then if i < 2 then (b + 3 + i) * 4096 + 7 else 0
  else if p = b + 3 then e i
  else if p = b + 4 then e (512 + i)
  else 0

/-- A kernel image that ends at `0x60000`. -/
def smallKernel : Layout := ⟨0x60000, 0x50000, 0x41000, by decide, by decide, by decide, by decide⟩

/-- Registers whose values do not matter. -/
def noRegs : Regs := ⟨0, 0, 0, 0, 0, 0, []⟩

/-- A state in which the processes with the numbers and roots `ps` can run, the first of them
    running. -/
def stateOf (ps : List (ℕ × ℕ)) (m : Mem) (pages : ℕ → UInt8) : State where
  mem := m
  pages := pages
  ptable := fun i => match ps.lookup i with
    | some r => ⟨r * 4096, i, .runnable, noRegs⟩
    | none => ⟨0, i, .free, noRegs⟩
  current := (ps.head?.getD (0, 0)).1
  viewer := 0
  spinning := false
  staleFree := false

/-- The checks of a state, for the slots in `ps`. -/
def treesOk (ps : List (ℕ × ℕ)) (m : Mem) : Bool :=
  decide (ps.flatMap fun x => tables m 3 x.2).Nodup && ps.all fun x => entriesOk m 3 x.2

theorem stateOf_live {ps : List (ℕ × ℕ)} {m : Mem} {pages : ℕ → UInt8} {i : ℕ}
    (h : (stateOf ps m pages).Live i) : ∃ r, (i, r) ∈ ps ∧ (stateOf ps m pages).root i = r ∧
      ((stateOf ps m pages).ptable i).pagetable = r * 4096 := by
  have hstate := h.2
  rw [State.root]
  simp only [stateOf] at hstate ⊢
  cases hl : ps.lookup i with
  | none =>
    rw [hl] at hstate
    exact absurd rfl hstate
  | some r =>
    refine ⟨r, ?_, page_div r, rfl⟩
    obtain ⟨as, bs, rfl, -⟩ := List.lookup_eq_some_iff.1 hl
    simp

theorem stateOf_pid {ps : List (ℕ × ℕ)} {m : Mem} {pages : ℕ → UInt8} {i : ℕ} :
    ((stateOf ps m pages).ptable i).pid = i := by
  simp only [stateOf]
  cases ps.lookup i with
  | none => rfl
  | some r => rfl

theorem shaped_of_treesOk {ps : List (ℕ × ℕ)} {i : ℕ} (h : treesOk ps m = true) (hr : (i, r) ∈ ps) :
    Shaped m r := by
  rw [treesOk, Bool.and_eq_true_iff, decide_eq_true_iff, List.all_eq_true] at h
  exact shaped_of_check (nodup_of_nodup_flatMap h.1 hr) (h.2 (i, r) hr)

theorem stateOf_treeShaped {ps : List (ℕ × ℕ)} {m : Mem} {pages : ℕ → UInt8}
    (h : treesOk ps m = true) : TreeShaped (stateOf ps m pages) := by
  refine ⟨fun i hi => ?_, fun i hi => ?_, fun i j hi hj hij => ?_⟩
  · obtain ⟨r, -, -, hpt⟩ := stateOf_live hi
    rw [hpt]
    exact Nat.mul_mod_left r PAGESIZE
  · obtain ⟨r, hr, hroot, -⟩ := stateOf_live hi
    rw [hroot]
    exact shaped_of_treesOk h hr
  · obtain ⟨r, hr, hroot, -⟩ := stateOf_live hi
    obtain ⟨r', hr', hroot', -⟩ := stateOf_live hj
    rw [treesOk, Bool.and_eq_true_iff, decide_eq_true_iff] at h
    rw [hroot, hroot']
    exact disjoint_of_nodup_flatMap h.1 hr hr' fun heq => hij (congrArg Prod.fst heq)

end CProj.WeensyOS
