/-
  The loop of `syscall_fork`.

  `ForkInv` is its invariant: the child's table maps the virtual pages below `v` as the parent's
  does, and the counts have grown by what the child owns: the pages `K` it has been given copies
  in, the tables, and the read-only pages it shares.  The pages `E` are allocated but not mapped.
  The invariant is kept by each of the loop's stores (`ForkInv.link`, `ForkInv.alloc`,
  `ForkInv.store`), as long as the allocator hands out pages that were free when the system call
  began.
-/
import CProj.WeensyOS.Free

namespace CProj.WeensyOS

/-! ## The parent's pages -/

/-- The page of the console. -/
def CONSOLE_PAGE : ℕ := CONSOLE_ADDR / PAGESIZE

theorem Alloc.ne_console {L : Layout} {n : ℕ} (h : Alloc L n) : n ≠ CONSOLE_PAGE := by
  rintro rfl
  exact h.not_console (by decide)

/-- The child gets its own copy of the page `w`. -/
def copied (m : Mem) (r w : ℕ) : Bool :=
  match translate m r w with
  | some (_, q) => IsUser q ∧ w ≠ CONSOLE_PAGE ∧ IsWritable q
  | none => false

/-- The page that the child shares with the parent, with a reference of its own. -/
def shared (m : Mem) (r w : ℕ) : List ℕ :=
  match translate m r w with
  | some (n, q) => if IsUser q ∧ ¬ IsWritable q then [n] else []
  | none => []

/-- The pages shared at the virtual pages below `v`. -/
def shares (m : Mem) (r v : ℕ) : List ℕ := (List.range v).flatMap (shared m r)

/-- The child with root `c` maps the page `w` as the parent with root `r` does: a copied page to
    one of the pages `K`, with the same contents, any other to the same frame. -/
def Maps (m : Mem) (r : ℕ) (m' : Mem) (c : ℕ) (K : List ℕ) (w : ℕ) : Prop :=
  match translate m r w with
  | some (n, q) => ∃ n' q', translate m' c w = some (n', q') ∧ pwu q' = pwu q ∧
    if copied m r w then n' ∈ K ∧ m' n' = m n else n' = n
  | none => translate m' c w = none

/-- The number of tables that the child may still need below `MEMSIZE_VIRTUAL`. -/
def missing (m : Mem) (c : ℕ) : ℕ := (stop m c 0).level + min 1 (stop m c 512).level

/-! ## The invariant -/

structure ForkInv (L : Layout) (b : State) (r c v : ℕ) (E K : List ℕ) (s : State) : Prop where
  shaped : Shaped s.mem c
  full : Full s.mem c
  small : Small s.mem c
  nodup : (E ++ K ++ tables s.mem 3 c).Nodup
  fresh : ∀ p ∈ E ++ K ++ tables s.mem 3 c, b.pages p = 0 ∧ Alloc L p
  mem : ∀ p, p ∉ E ++ K ++ tables s.mem 3 c → s.mem p = b.mem p
  pages : ∀ p, s.pages p =
    b.pages p + UInt8.ofNat ((E ++ K ++ tables s.mem 3 c ++ shares b.mem r v).count p)
  procs : (procPages s.mem c).Perm (K ++ shares b.mem r v)
  beyond : ∀ w, Canonical w → v ≤ w → translate s.mem c w = none
  maps : ∀ w < v, Maps b.mem r s.mem c K w
  inj : ∀ w < v, ∀ w' < v, copied b.mem r w → copied b.mem r w' →
    userPage s.mem c w = userPage s.mem c w' → w = w'
  tables_le : (subtables s.mem 3 c).length + missing s.mem c ≤ 4
  copies : K.length = (List.range v).countP (copied b.mem r)
  rest : s = { b with mem := s.mem, pages := s.pages }

variable {L : Layout} {b s : State} {r c v n : ℕ} {E K : List ℕ}

/-! ## Storing a link -/

/-- Pages with the same indices from the end of a walk up have the same walk. -/
theorem stop_eq_of_ix {m : Mem} {v' : ℕ} (hl : 0 < (stop m r v).level)
    (h : ∀ k, (stop m r v).level ≤ k → k ≤ 3 → ix v' k = ix v k) : stop m r v' = stop m r v := by
  have hnl : ¬ IsLink (m (stop m r v).page (stop m r v).idx) := walk_stop hl
  have hidx : (stop m r v).idx = ix v (stop m r v).level := walk_idx
  have hres : stop m r v' = walk m v' (stop m r v).level (stop m r v).page (stop m r v).perm :=
    walk_resume fun k hk hk3 => h k hk.le hk3
  have hix := h _ le_rfl walk_level_le
  obtain ⟨k, hk⟩ : ∃ k, (stop m r v).level = k + 1 := ⟨_, (Nat.succ_pred_eq_of_pos hl).symm⟩
  rw [hres]
  rw [hk] at hix hidx ⊢
  rw [hidx, ← hix] at hnl
  rw [walk_not_link hnl, hix, ← hidx, ← hk]

theorem Linkable.level_le {m : Mem} {k : ℕ} (h : Linkable m c v n k) (w : ℕ) :
    (stop (linked m c v n) c w).level ≤ (stop m c w).level := by
  by_cases heq : ((stop m c w).page, (stop m c w).idx) = ((stop m c v).page, (stop m c v).idx)
  · have hlev : (stop m c w).level = (stop m c v).level := (walk_same_path h.shaped.tree heq).1
    rw [h.stop_same heq, hlev, h.level]
    exact Nat.le_succ k
  · rw [(h.stop_other heq).1]

/-- A page that shares the indices of `v` at the levels above the new link. -/
theorem Linkable.level_eq {m : Mem} {k w : ℕ} (h : Linkable m c v n k)
    (hix : ∀ j, k + 1 ≤ j → j ≤ 3 → ix w j = ix v j) :
    (stop m c w).level = k + 1 ∧ (stop (linked m c v n) c w).level = k := by
  have hl := h.level
  have heq : stop m c w = stop m c v :=
    stop_eq_of_ix (by omega) fun j hj hj3 => hix j (by omega) hj3
  refine ⟨by rw [heq, hl], ?_⟩
  rw [h.stop_same (by rw [heq])]

/-- Every link brings the child closer to having all its tables. -/
theorem Linkable.missing_lt {m : Mem} {k : ℕ} (h : Linkable m c v n k) (hv : v < 768) :
    missing (linked m c v n) c + 1 ≤ missing m c := by
  have h0 := h.level_le 0
  have h512 := h.level_le 512
  rw [missing, missing]
  by_cases hlow : v < 512
  · obtain ⟨h1, h2⟩ := h.level_eq (w := 0) fun j hj hj3 => by
      rw [ix, ix, Nat.zero_div, Nat.div_eq_of_lt]
      exact lt_of_lt_of_le hlow (Nat.le_self_pow (by omega) 512)
    omega
  · by_cases hk : k = 0
    · obtain ⟨h1, h2⟩ := h.level_eq (w := 512) fun j hj hj3 => by
        rcases (by omega : j = 1 ∨ j = 2 ∨ j = 3) with rfl | rfl | rfl <;>
          simp only [ix, Nat.reducePow] <;> omega
      omega
    · obtain ⟨h1, h2⟩ := h.level_eq (w := 0) fun j hj hj3 => by
        rcases (by omega : j = 2 ∨ j = 3) with rfl | rfl <;> simp only [ix, Nat.reducePow] <;> omega
      omega

/-! ## One store after the other -/

theorem translate_eq_none {m : Mem} (h : translate m r v = none) :
    m (stop m r v).page (stop m r v).idx % 2 = 0 := by
  by_contra hp
  rw [translate, if_pos (by omega)] at h
  cases h

/-- The parts of the invariant that a change of memory outside the copies and with the same
    translations keeps. -/
theorem Maps.congr {m m' m₁ : Mem} {w : ℕ} (h : Maps m r m' c K w)
    (htr : translate m₁ c w = translate m' c w) (hK : ∀ p ∈ K, m₁ p = m' p) :
    Maps m r m₁ c K w := by
  unfold Maps at h ⊢
  cases hp : translate m r w with
  | none => rw [hp] at h; simp only at h ⊢; rw [htr]; exact h
  | some x =>
    obtain ⟨n, q⟩ := x
    rw [hp] at h
    simp only at h ⊢
    obtain ⟨n', q', h1, h2, h3⟩ := h
    refine ⟨n', q', htr.trans h1, h2, ?_⟩
    split_ifs at h3 ⊢ with hcop
    · exact ⟨h3.1, by rw [hK n' h3.1, h3.2]⟩
    · exact h3

/-- Growing the set of copies. -/
theorem Maps.mono {m m' : Mem} {w : ℕ} {K' : List ℕ} (h : Maps m r m' c K w) (hK : K ⊆ K') :
    Maps m r m' c K' w := by
  unfold Maps at h ⊢
  cases hp : translate m r w with
  | none => rw [hp] at h; exact h
  | some x =>
    obtain ⟨n, q⟩ := x
    rw [hp] at h
    simp only at h ⊢
    obtain ⟨n', q', h1, h2, h3⟩ := h
    refine ⟨n', q', h1, h2, ?_⟩
    split_ifs at h3 ⊢ with hcop
    · exact ⟨hK h3.1, h3.2⟩
    · exact h3

/-- A page that the allocator may hand out. -/
def Fresh (b : State) (c : ℕ) (E K : List ℕ) (s : State) (n : ℕ) : Prop :=
  b.pages n = 0 ∧ n ∉ E ++ K ++ tables s.mem 3 c

theorem userPage_congr {m m' : Mem} (h : translate m' r v = translate m r v) :
    userPage m' r v = userPage m r v := by rw [userPage, userPage, h]

theorem procPages_congr {m m' : Mem} (h : ∀ w < 768, translate m' r w = translate m r w) :
    procPages m' r = procPages m r := by
  unfold procPages userPages
  refine List.flatMap_congr fun w hw => ?_
  rw [userPage_congr (h w (List.mem_range'_1.1 hw).2)]

/-- **A link** to a new table keeps the invariant. -/
theorem ForkInv.link (h : ForkInv L b r c v E K s) (hv : v < 768) {k : ℕ}
    (hfree : firstFree L s.pages = some n) (hlink : Linkable s.mem c v n k)
    (hn : Fresh b c E K s n) : ForkInv L b r c v E K (s.link c v n) := by
  obtain ⟨halloc, h0⟩ := firstFree_some hfree
  have hg : Grown L c s (s.link c v n) [n] := grown_link hlink h0 halloc
  have htables : (tables (s.link c v n).mem 3 c).Perm (tables s.mem 3 c ++ [n]) :=
    hg.subtables.cons c
  have hperm : (E ++ K ++ tables (s.link c v n).mem 3 c).Perm (E ++ K ++ tables s.mem 3 c ++ [n]) := by
    rw [List.append_assoc _ _ [n]]
    exact htables.append_left _
  have hmem : ∀ p, p ∉ tables s.mem 3 c → p ≠ n → (s.link c v n).mem p = s.mem p :=
    fun p hp hpn => hg.mem p hp (by simpa using hpn)
  have hK : ∀ p ∈ K, (s.link c v n).mem p = s.mem p := by
    intro p hp
    refine hmem p (fun ht => ?_) fun hpn => hn.2 (by simp [← hpn, hp])
    have hdisj := (List.nodup_append.1 h.nodup).2.2
    exact hdisj p (List.mem_append_right _ hp) p ht rfl
  refine ⟨hg.shaped, hg.full h.full, hg.small h.small, ?_, fun p hp => ?_, fun p hp => ?_,
    fun p => ?_, ?_, fun w hw hvw => (hg.translate w).trans (h.beyond w hw hvw),
    fun w hw => (h.maps w hw).congr (hg.translate w) hK, fun w hw w' hw' hc hc' heq => ?_, ?_,
      h.copies, ?_⟩
  · rw [hperm.nodup_iff]
    exact List.nodup_append.2 ⟨h.nodup, List.nodup_singleton n, by
      intro a ha x hx
      rw [List.mem_singleton.1 hx]
      rintro rfl
      exact hn.2 ha⟩
  · rcases List.mem_append.1 (hperm.mem_iff.1 hp) with hp | hp
    · exact h.fresh p hp
    · rw [List.mem_singleton.1 hp]
      exact ⟨hn.1, halloc⟩
  · rw [hperm.mem_iff, List.mem_append, not_or, List.mem_singleton] at hp
    rw [hmem p (fun ht => hp.1 (List.mem_append_right _ ht)) hp.2, h.mem p hp.1]
  · rw [hg.pages, List.count_append, hperm.count_eq, List.count_append]
    by_cases hpn : p = n
    · subst hpn
      have hpages := h.pages p
      rw [h0, List.count_append, List.count_eq_zero_of_not_mem hn.2] at hpages
      rw [if_pos (by simp), List.count_eq_zero_of_not_mem hn.2, List.count_singleton_self,
        Nat.zero_add, Nat.add_comm, UInt8.ofNat_add, ← UInt8.add_assoc]
      rw [Nat.zero_add] at hpages
      rw [← hpages]
      rfl
    · rw [if_neg (by simpa using hpn), h.pages, List.count_append, List.count_singleton]
      have : ¬ (n == p) = true := by simpa using Ne.symm hpn
      rw [if_neg this, Nat.add_zero]
  · have hsame : procPages (s.link c v n).mem c = procPages s.mem c :=
      procPages_congr fun w _ => hg.translate w
    rw [hsame]
    exact h.procs
  · rw [userPage_congr (hg.translate w), userPage_congr (hg.translate w')] at heq
    exact h.inj w hw w' hw' hc hc' heq
  · have hlen := hg.subtables.length_eq
    have hmiss := hlink.missing_lt hv
    have hle := h.tables_le
    have hlinked : (s.link c v n).mem = linked s.mem c v n := rfl
    rw [List.length_append, List.length_singleton] at hlen
    rw [hlen, hlinked]
    omega
  · have hrest := h.rest
    rw [hrest]
    rfl

/-! ## Storing an entry -/

theorem shares_succ {m : Mem} : shares m r (v + 1) = shares m r v ++ shared m r v := by
  rw [shares, List.range_succ, List.flatMap_append, List.flatMap_singleton]; rfl

theorem copied_iff {m : Mem} : copied m r v = true ↔
    ∃ n q, translate m r v = some (n, q) ∧ IsUser q ∧ v ≠ CONSOLE_PAGE ∧ IsWritable q := by
  rw [copied]
  cases h : translate m r v with
  | none => simp
  | some x =>
    obtain ⟨n, q⟩ := x
    simp only [decide_eq_true_eq, Option.some.injEq, Prod.mk.injEq]
    constructor
    · intro hq
      exact ⟨n, q, ⟨rfl, rfl⟩, hq⟩
    · rintro ⟨n', q', ⟨rfl, rfl⟩, hq⟩
      exact hq

/-- A copied page is one of the copies in the child. -/
theorem Maps.copied {m m' : Mem} (h : Maps m r m' c K v) (hc : copied m r v = true) :
    ∃ p ∈ K, userPage m' c v = some p := by
  obtain ⟨n, q, htr, huser, -, -⟩ := copied_iff.1 hc
  rw [Maps, htr] at h
  obtain ⟨n', q', h1, h2, h3⟩ := h
  rw [if_pos hc] at h3
  exact ⟨n', h3.1, userPage_eq_some.2 ⟨q', h1, by rwa [← isUser_pwu, h2, isUser_pwu]⟩⟩

/-- An entry of level 0 for the page `v`: what must be known of its translation. -/
structure Entry (b : State) (r v : ℕ) (E K : List ℕ) (m : Mem) (c : ℕ) : Prop where
  maps : Maps b.mem r m c (E ++ K) v
  low : v < 256 → E = [] ∧ shared b.mem r v = []
  user : 256 ≤ v → (userPage m c v).toList = E ++ shared b.mem r v
  length : E.length = if copied b.mem r v then 1 else 0

/-- The state after the page `v` has been mapped and, if it is shared, its count raised. -/
def State.store (s : State) (b : State) (r c v n q : ℕ) : State :=
  { s.map c v n q with pages := fun p => s.pages p + UInt8.ofNat ((shared b.mem r v).count p) }

section
variable {q w : ℕ}

/-- Storing an entry changes no page but the table. -/
theorem mapped_mem {m : Mem} {p : ℕ} (hp : p ∉ tables m 3 c) : mapped m c v n q p = m p := by
  funext i
  refine set_page_ne ?_ i
  rintro rfl
  exact hp stop_page_mem

variable (h : ForkInv L b r c v E K s) (hv : v < 768) (hl : (stop s.mem c v).level = 0)
include h hv hl

theorem ForkInv.userPage_mapped (hw : w < 768) (hwv : w ≠ v) :
    userPage (mapped s.mem c v n q) c w = userPage s.mem c w :=
  userPage_congr (translate_mapped_other h.shaped hl (canonical_of_lt (by omega))
    (canonical_of_lt (by omega)) hwv)

variable (he : Entry b r v E K (mapped s.mem c v n q) c)
include he

/-- The child's pages with the new one. -/
theorem ForkInv.procPages_mapped :
    (procPages (mapped s.mem c v n q) c).Perm (E ++ K ++ shares b.mem r (v + 1)) := by
  rw [shares_succ]
  by_cases hlow : v < 256
  · obtain ⟨hE, hsh⟩ := he.low hlow
    rw [hE, hsh, List.append_nil, List.nil_append]
    have hsame : procPages (mapped s.mem c v n q) c = procPages s.mem c := by
      unfold procPages userPages
      refine List.flatMap_congr fun w hw => ?_
      have hw' : 256 ≤ w ∧ w < 768 := List.mem_range'_1.1 hw
      rw [h.userPage_mapped hv hl hw'.2 (by omega)]
    rw [hsame]
    exact h.procs
  · have hnone : userPage s.mem c v = none := by
      rw [userPage, h.beyond v (canonical_of_lt (by omega)) le_rfl]
    have hnew : (procPages (mapped s.mem c v n q) c).Perm
        (procPages s.mem c ++ (E ++ shared b.mem r v)) := by
      unfold procPages userPages
      refine flatMap_update_perm (j := v) List.nodup_range' (List.mem_range'_1.2 ?_)
        (fun w hw hwv => ?_) ?_
      · exact ⟨not_lt.1 hlow, hv⟩
      · have hw' : 256 ≤ w ∧ w < 768 := List.mem_range'_1.1 hw
        rw [h.userPage_mapped hv hl hw'.2 hwv]
      · rw [hnone, he.user (not_lt.1 hlow)]
        exact List.Perm.refl _
    refine hnew.trans ((h.procs.append_right _).trans ?_)
    refine List.perm_iff_count.2 fun p => ?_
    simp only [List.count_append]
    omega

/-- A copy at `v` is not one of the earlier copies. -/
theorem ForkInv.copy_ne (hw : w < v) (hcv : copied b.mem r v = true) (hcw : copied b.mem r w = true) :
    userPage (mapped s.mem c v n q) c v ≠ userPage (mapped s.mem c v n q) c w := by
  intro heq
  obtain ⟨p, hp, hpage⟩ := (h.maps w hw).copied hcw
  rw [h.userPage_mapped (w := w) hv hl (by omega) (by omega), hpage] at heq
  have hlen := he.length
  rw [if_pos hcv] at hlen
  obtain ⟨e, rfl⟩ := List.length_eq_one_iff.1 hlen
  have hge : 256 ≤ v := by
    by_contra hlt
    cases (he.low (by omega)).1
  have huser := he.user hge
  rw [heq] at huser
  obtain rfl : p = e := by simpa using congrArg List.head? huser
  exact (List.nodup_append.1 (List.nodup_append.1 h.nodup).1).2.2 p List.mem_cons_self p hp rfl

/-- The copies are different pages. -/
theorem ForkInv.inj_mapped {w' : ℕ} (hw : w < v + 1) (hw' : w' < v + 1)
    (hc : copied b.mem r w = true) (hc' : copied b.mem r w' = true)
    (heq : userPage (mapped s.mem c v n q) c w = userPage (mapped s.mem c v n q) c w') :
    w = w' := by
  rcases Nat.lt_succ_iff_lt_or_eq.1 hw with hwv | rfl <;>
    rcases Nat.lt_succ_iff_lt_or_eq.1 hw' with hwv' | rfl
  · rw [h.userPage_mapped (w := w) hv hl (by omega) (by omega),
      h.userPage_mapped (w := w') hv hl (by omega) (by omega)] at heq
    exact h.inj w hwv w' hwv' hc hc' heq
  · exact (h.copy_ne hv hl he hwv hc' hc heq.symm).elim
  · exact (h.copy_ne hv hl he hwv' hc hc' heq).elim
  · rfl

/-- The child maps every page up to `v` as the parent does. -/
theorem ForkInv.maps_mapped (hw : w < v + 1) :
    Maps b.mem r (mapped s.mem c v n q) c (E ++ K) w := by
  rcases Nat.lt_succ_iff_lt_or_eq.1 hw with hwv | rfl
  · have hother := translate_mapped_other h.shaped hl (n := n) (q := q)
      (canonical_of_lt (v := v) (by omega)) (canonical_of_lt (v := w) (by omega)) hwv.ne
    refine ((h.maps w hwv).congr hother fun p hp => mapped_mem fun ht => ?_).mono ?_
    · exact (List.nodup_append.1 h.nodup).2.2 p (List.mem_append_right _ hp) p ht rfl
    · exact List.subset_append_right E K
  · exact he.maps

end

/-- **An entry** keeps the invariant and brings it to the next page. -/
theorem ForkInv.store {q : ℕ} (h : ForkInv L b r c v E K s) (hv : v < 768)
    (hl : (stop s.mem c v).level = 0) (hn : n < 2 ^ 20) (hq : q < 4096)
    (he : Entry b r v E K (mapped s.mem c v n q) c) :
    ForkInv L b r c (v + 1) [] (E ++ K) (s.store b r c v n q) := by
  have hsubtables : subtables (mapped s.mem c v n q) 3 c = subtables s.mem 3 c :=
    subtables_mapped h.shaped hl
  have htables : tables (mapped s.mem c v n q) 3 c = tables s.mem 3 c := by
    rw [tables, tables, hsubtables]
  refine ⟨shaped_mapped h.shaped hl hn hq, h.full.mapped h.shaped hl, h.small.mapped h.shaped hl,
    ?_, ?_, fun p hp => ?_, fun p => ?_, h.procPages_mapped hv hl he, fun w hw hvw => ?_,
    fun w hw => h.maps_mapped hv hl he hw,
    fun w hw w' hw' hc hc' heq => h.inj_mapped hv hl he hw hw' hc hc' heq, ?_, ?_, ?_⟩
  · change ([] ++ (E ++ K) ++ tables (mapped s.mem c v n q) 3 c).Nodup
    rw [htables]
    exact h.nodup
  · change ∀ p ∈ [] ++ (E ++ K) ++ tables (mapped s.mem c v n q) 3 c, _
    rw [htables]
    exact h.fresh
  · change p ∉ [] ++ (E ++ K) ++ tables (mapped s.mem c v n q) 3 c at hp
    rw [htables] at hp
    exact (mapped_mem fun ht => hp (List.mem_append_right _ ht)).trans (h.mem p hp)
  · change s.pages p + UInt8.ofNat ((shared b.mem r v).count p) = b.pages p + UInt8.ofNat
      (([] ++ (E ++ K) ++ tables (mapped s.mem c v n q) 3 c ++ shares b.mem r (v + 1)).count p)
    have hcount : ([] ++ (E ++ K) ++ tables s.mem 3 c ++ shares b.mem r (v + 1)).count p =
        (E ++ K ++ tables s.mem 3 c ++ shares b.mem r v).count p + (shared b.mem r v).count p := by
      rw [shares_succ, ← List.append_assoc, List.nil_append, List.count_append]
    rw [htables, hcount, UInt8.ofNat_add, ← UInt8.add_assoc, ← h.pages p]
  · have hother := translate_mapped_other h.shaped hl (n := n) (q := q)
      (canonical_of_lt (v := v) (by omega)) hw (show w ≠ v by omega)
    exact hother.trans (h.beyond w hw (by omega))
  · change (subtables (mapped s.mem c v n q) 3 c).length + missing (mapped s.mem c v n q) c ≤ 4
    rw [hsubtables, missing, stop_mapped h.shaped hl, stop_mapped h.shaped hl]
    exact h.tables_le
  · rw [List.length_append, he.length, h.copies, List.range_succ, List.countP_append,
      List.countP_singleton, Nat.add_comm]
  · have hrest := h.rest
    rw [State.store, State.map]
    simp only
    rw [hrest]

/-- **A page for a copy** is allocated, and filled. -/
theorem ForkInv.alloc (h : ForkInv L b r c v [] K s) (hfree : firstFree L s.pages = some n)
    (hn : Fresh b c [] K s n) {m : Mem} (hm : ∀ p, p ≠ n → m p = s.mem p) :
    ForkInv L b r c v [n] K { s with pages := Function.update s.pages n 1, mem := m } := by
  obtain ⟨halloc, h0⟩ := firstFree_some hfree
  obtain ⟨hn0, hnew⟩ := hn
  rw [List.nil_append] at hnew
  have hagree : Agree s.mem m (tables s.mem 3 c) := by
    intro p hp i
    rw [hm p]
    rintro rfl
    exact hnew (List.mem_append_right _ hp)
  have hlist : [n] ++ K ++ tables m 3 c = n :: (K ++ tables s.mem 3 c) := by
    rw [hagree.tables]; rfl
  have hprocs : procPages m c = procPages s.mem c := procPages_congr fun w _ => hagree.translate
  refine ⟨hagree.shaped h.shaped, hagree.full h.full, hagree.small h.small, ?_, ?_, fun p hp => ?_,
    fun p => ?_, ?_, fun w hw hvw => hagree.translate.trans (h.beyond w hw hvw),
    fun w hw => (h.maps w hw).congr hagree.translate fun p hp => ?_,
    fun w hw w' hw' hc hc' heq => ?_, ?_, h.copies, ?_⟩
  · change ([n] ++ K ++ tables m 3 c).Nodup
    rw [hlist]
    exact List.nodup_cons.2 ⟨hnew, h.nodup⟩
  · change ∀ p ∈ [n] ++ K ++ tables m 3 c, _
    rw [hlist]
    intro p hp
    rcases List.mem_cons.1 hp with rfl | hp
    · exact ⟨hn0, halloc⟩
    · exact h.fresh p hp
  · change p ∉ [n] ++ K ++ tables m 3 c at hp
    rw [hlist, List.mem_cons, not_or] at hp
    exact (hm p hp.1).trans (h.mem p hp.2)
  · change Function.update s.pages n 1 p = b.pages p +
      UInt8.ofNat (([n] ++ K ++ tables m 3 c ++ shares b.mem r v).count p)
    have hpages := h.pages p
    rw [List.nil_append] at hpages
    rw [hlist, List.cons_append, List.count_cons, Function.update_apply]
    by_cases hpn : p = n
    · subst hpn
      rw [if_pos rfl, if_pos (by simp), UInt8.ofNat_add, ← UInt8.add_assoc, ← hpages, h0]
      rfl
    · rw [if_neg hpn, if_neg (by simpa using Ne.symm hpn), hpages, Nat.add_zero]
  · change (procPages m c).Perm _
    rw [hprocs]
    exact h.procs
  · exact hm p fun hpn => hnew (List.mem_append_left _ (hpn ▸ hp))
  · change userPage m c w = userPage m c w' at heq
    rw [hagree.userPage, hagree.userPage] at heq
    exact h.inj w hw w' hw' hc hc' heq
  · change (subtables m 3 c).length + missing m c ≤ 4
    rw [hagree.subtables, missing, hagree.stop, hagree.stop]
    exact h.tables_le
  · rw [h.rest]

/-- A page that the parent does not map is skipped where the child has no table for it. -/
theorem ForkInv.skip (h : ForkInv L b r c v [] K s) (hv : v < 768)
    (hnone : translate b.mem r v = none) : ForkInv L b r c (v + 1) [] K s := by
  have hshared : shared b.mem r v = [] := by rw [shared, hnone]
  have hcopied : copied b.mem r v = false := by rw [copied, hnone]
  have hshares : shares b.mem r (v + 1) = shares b.mem r v := by
    rw [shares_succ, hshared, List.append_nil]
  refine ⟨h.shaped, h.full, h.small, h.nodup, h.fresh, h.mem, by rw [hshares]; exact h.pages,
    by rw [hshares]; exact h.procs, fun w hw hvw => h.beyond w hw (by omega), fun w hw => ?_,
    fun w hw w' hw' hc hc' heq => ?_, h.tables_le, ?_, h.rest⟩
  · rcases (by omega : w < v ∨ w = v) with hwv | rfl
    · exact h.maps w hwv
    · rw [Maps, hnone]
      exact h.beyond w (canonical_of_lt (by omega)) le_rfl
  · have hlt : ∀ {x}, x < v + 1 → copied b.mem r x = true → x < v := by
      intro x hx hcx
      rcases (by omega : x < v ∨ x = v) with hxv | rfl
      · exact hxv
      · rw [hcopied] at hcx
        cases hcx
    exact h.inj w (hlt hw hc) w' (hlt hw' hc') hc hc' heq
  · rw [h.copies, List.range_succ, List.countP_append, List.countP_singleton, hcopied]
    rfl

/-! ## The parent -/

/-- What the loop needs of the parent: its table is a tree of pages that are in use, nothing below
    `PROC_START_ADDR` is copied or shared, and the pages it copies are in use. -/
structure Parent (b : State) (r : ℕ) : Prop where
  shaped : Shaped b.mem r
  used : ∀ p ∈ tables b.mem 3 r, b.pages p ≠ 0
  low : ∀ w < 256, copied b.mem r w = false ∧ shared b.mem r w = []
  pages : ∀ p ∈ procPages b.mem r, b.pages p ≠ 0

theorem ForkInv.not_mem (h : ForkInv L b r c v E K s) {p : ℕ} (hp : b.pages p ≠ 0) :
    p ∉ E ++ K ++ tables s.mem 3 c := fun hmem => hp (h.fresh p hmem).1

theorem ForkInv.agree (h : ForkInv L b r c v E K s) (hb : Parent b r) :
    Agree b.mem s.mem (tables b.mem 3 r) := by
  intro p hp i
  rw [h.mem p (h.not_mem (hb.used p hp))]

theorem mem_procPages {m : Mem} {p : ℕ} :
    p ∈ procPages m r ↔ ∃ w, 256 ≤ w ∧ w < 768 ∧ userPage m r w = some p := by
  unfold procPages userPages
  rw [List.mem_flatMap]
  constructor
  · rintro ⟨w, hw, hp⟩
    obtain ⟨h1, h2⟩ : 256 ≤ w ∧ w < 768 := List.mem_range'_1.1 hw
    exact ⟨w, h1, h2, by simpa using hp⟩
  · rintro ⟨w, h1, h2, hp⟩
    exact ⟨w, List.mem_range'_1.2 ⟨h1, h2⟩, by simp [hp]⟩

/-- The source of a copy is in use. -/
theorem Parent.copied (hb : Parent b r) (hv : v < 768) (hc : copied b.mem r v = true) {q : ℕ}
    (htr : translate b.mem r v = some (n, q)) : b.pages n ≠ 0 := by
  obtain ⟨n', q', htr', huser, -, -⟩ := copied_iff.1 hc
  rw [htr] at htr'
  obtain ⟨rfl, rfl⟩ := Prod.ext_iff.1 (Option.some.inj htr')
  refine hb.pages n (mem_procPages.2 ⟨v, ?_, hv, userPage_eq_some.2 ⟨q, htr, huser⟩⟩)
  by_contra hlt
  rw [(hb.low v (by omega)).1] at hc
  cases hc

/-- The entry that the loop stores for a page of the parent. -/
theorem ForkInv.entry (h : ForkInv L b r c v E K s) (hb : Parent b r) (hv : v < 768)
    (hl : (stop s.mem c v).level = 0) {n' q : ℕ} (htr : translate b.mem r v = some (n, q))
    (hn' : n' < 2 ^ 20)
    (hE : if copied b.mem r v then E = [n'] ∧ s.mem n' = b.mem n else E = [] ∧ n' = n) :
    Entry b r v E K (mapped s.mem c v n' q) c := by
  obtain ⟨hodd, hq⟩ := translate_perm htr
  have hpwu := (pwu_and_full (h.full v) q).2
  have htr' : translate (mapped s.mem c v n' q) c v = some (n', q &&& (stop s.mem c v).perm) := by
    rw [translate_mapped h.shaped hl hn' hq, if_pos hodd]
  have huser : IsUser (q &&& (stop s.mem c v).perm) ↔ IsUser q := by
    rw [← isUser_pwu, hpwu, isUser_pwu]
  refine ⟨?_, fun hlow => ?_, fun hge => ?_, ?_⟩
  · rw [Maps, htr]
    refine ⟨n', _, htr', hpwu, ?_⟩
    split_ifs at hE ⊢ with hc
    · obtain ⟨rfl, hsrc⟩ := hE
      refine ⟨List.mem_append_left _ List.mem_cons_self, ?_⟩
      rw [← hsrc]
      funext i
      refine set_page_ne ?_ i
      rintro rfl
      exact (List.nodup_append.1 h.nodup).2.2 _ (List.mem_append_left _ List.mem_cons_self) _
        stop_page_mem rfl
    · exact hE.2
  · obtain ⟨hc, hsh⟩ := hb.low v hlow
    rw [hc] at hE
    exact ⟨hE.1, hsh⟩
  · have hcon : v ≠ CONSOLE_PAGE := by
      rintro rfl
      exact absurd hge (by decide)
    rw [userPage, htr', shared, htr]
    simp only [huser]
    by_cases hu : IsUser q
    · by_cases hw : IsWritable q
      · rw [if_pos (copied_iff.2 ⟨n, q, htr, hu, hcon, hw⟩)] at hE
        simp [hu, hw, hE.1]
      · have hc : ¬ copied b.mem r v = true := by
          intro hc
          obtain ⟨n₁, q₁, h1, -, -, h2⟩ := copied_iff.1 hc
          rw [htr] at h1
          cases h1
          exact hw h2
        rw [if_neg hc] at hE
        simp [hu, hw, hE.1, hE.2]
    · have hc : ¬ copied b.mem r v = true := by
        intro hc
        obtain ⟨n₁, q₁, h1, h2, -, -⟩ := copied_iff.1 hc
        rw [htr] at h1
        cases h1
        exact hu h2
      rw [if_neg hc] at hE
      simp [hu, hE.1]
  · split_ifs at hE ⊢ with hc
    · rw [hE.1]; rfl
    · rw [hE.1]; rfl

end CProj.WeensyOS
