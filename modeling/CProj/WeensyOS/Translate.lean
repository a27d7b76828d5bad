/-
  What page tables say: translations, and the iterators that read them.

  `translate m r v` is the frame and the permissions of the virtual page `v` in the table with
  root `r`.  A `vmiter` that has been positioned at an address is determined by the memory
  (`vmiterAt`), however it got there: `find_eq`.  The two stores that `try_map` makes, a link to an
  empty table and an entry of level 0, change no translation and one translation
  (`translate_link`, `translate_leaf`).
-/
import Mathlib.Tactic.Ring
import CProj.WeensyOS.PageTable

namespace CProj.WeensyOS

/-! ## Bits of entries -/

theorem pageOf_eq (e : ℕ) : pageOf e = e / 4096 % 2 ^ 40 := by
  have h : e &&& PTE_PAMASK = e / 2 ^ 12 % 2 ^ 40 * 2 ^ 12 := by
    rw [PTE_PAMASK, show (0x000FFFFFFFFFF000 : ℕ) = (2 ^ 40 - 1) * 2 ^ 12 by norm_num]
    refine Nat.eq_of_testBit_eq fun i => ?_
    rw [Nat.testBit_and, Nat.testBit_mul_two_pow, Nat.testBit_mul_two_pow,
      Nat.testBit_two_pow_sub_one, Nat.testBit_mod_two_pow, Nat.testBit_div_two_pow]
    by_cases hi : 12 ≤ i
    · simp [hi, Bool.and_comm]
    · simp [hi]
  rw [pageOf, h, PAGESIZE]
  exact Nat.mul_div_cancel _ (by decide)

theorem and_pamask (e : ℕ) : e &&& PTE_PAMASK = pageOf e * 4096 := by
  have h : (e &&& PTE_PAMASK) % 4096 = 0 := by
    rw [show (4096 : ℕ) = 2 ^ 12 by norm_num, ← Nat.and_two_pow_sub_one_eq_mod, Nat.and_assoc]
    rw [show PTE_PAMASK &&& (2 ^ 12 - 1) = 0 by decide, Nat.and_zero]
  rw [pageOf, PAGESIZE]
  omega

theorem and_one (e : ℕ) : e &&& PTE_P = e % 2 := Nat.and_one_is_mod e

theorem isLink_iff (e : ℕ) : IsLink e ↔ e % 2 = 1 ∧ e / 128 % 2 = 0 := by
  have h : e &&& (PTE_P ||| PTE_PS) = e % 256 &&& 0x81 := by
    rw [show (256 : ℕ) = 2 ^ 8 by norm_num, ← Nat.and_two_pow_sub_one_eq_mod, Nat.and_assoc]
    rfl
  have h1 : e % 2 = e % 256 % 2 := by omega
  have h2 : e / 128 % 2 = e % 256 / 128 % 2 := by omega
  rw [IsLink, h, h1, h2]
  have hlt : e % 256 < 256 := Nat.mod_lt _ (by decide)
  generalize e % 256 = x at hlt
  revert x
  decide +kernel

/-- The entry `pa | perm` for a page-aligned address. -/
theorem page_or_perm {n q : ℕ} (hq : q < 4096) : n * 4096 ||| q = n * 4096 + q := by
  have h := Nat.two_pow_add_eq_or_of_lt (show q < 2 ^ 12 by norm_num; exact hq) n
  rw [Nat.mul_comm n 4096]
  exact h.symm

theorem pageOf_entry {n q : ℕ} (hn : n < 2 ^ 40) (hq : q < 4096) : pageOf (n * 4096 + q) = n := by
  rw [pageOf_eq]; omega

/-- The permissions of an entry. -/
theorem entry_and_perm {n q p : ℕ} (hq : q < 4096) (hp : p < 4096) :
    (n * 4096 + q) &&& p = q &&& p := by
  have hp' : p &&& (2 ^ 12 - 1) = p := by
    rw [Nat.and_two_pow_sub_one_eq_mod]; exact Nat.mod_eq_of_lt (by norm_num; exact hp)
  have h : ∀ x, x &&& p = x % 4096 &&& p := by
    intro x
    rw [← hp', Nat.and_comm p, ← Nat.and_assoc, ← Nat.and_assoc, Nat.and_two_pow_sub_one_eq_mod,
      Nat.and_two_pow_sub_one_eq_mod]
    norm_num
  rw [h, show (n * 4096 + q) % 4096 = q by omega]

/-- The permissions that grant access to the user. -/
def IsUser (q : ℕ) : Prop := q &&& (PTE_P ||| PTE_U) = PTE_P ||| PTE_U

/-- The permissions that allow writing. -/
def IsWritable (q : ℕ) : Prop := q &&& (PTE_P ||| PTE_W) = PTE_P ||| PTE_W

instance (q : ℕ) : Decidable (IsUser q) := inferInstanceAs (Decidable (_ = _))
instance (q : ℕ) : Decidable (IsWritable q) := inferInstanceAs (Decidable (_ = _))

/-- The bits `PTE_P`, `PTE_W` and `PTE_U` of permissions. -/
def pwu (q : ℕ) : ℕ := q &&& (PTE_P ||| PTE_W ||| PTE_U)

theorem pwu_eq (q : ℕ) : pwu q = q % 8 := by
  rw [pwu, show PTE_P ||| PTE_W ||| PTE_U = 2 ^ 3 - 1 by decide, Nat.and_two_pow_sub_one_eq_mod]

theorem isUser_pwu (q : ℕ) : IsUser (pwu q) ↔ IsUser q := by
  rw [IsUser, IsUser, pwu, Nat.and_assoc]; rfl

theorem isWritable_pwu (q : ℕ) : IsWritable (pwu q) ↔ IsWritable q := by
  rw [IsWritable, IsWritable, pwu, Nat.and_assoc]; rfl

/-! ## Translations -/

/-- The end of the walk for the virtual page `v` from the root `r`. -/
def stop (m : Mem) (r v : ℕ) : Stop := walk m v 3 r initialPerm

/-- The frame that an entry of the given level assigns to the page `v`. -/
def frame (level e v : ℕ) : ℕ :=
  if level = 0 then pageOf e else pageOf e / 2 * 2 + v % 512 ^ level

/-- The frame and the permissions of a virtual page, if it is present. -/
def translate (m : Mem) (r v : ℕ) : Option (ℕ × ℕ) :=
  let e := m (stop m r v).page (stop m r v).idx
  if e % 2 = 1 then some (frame (stop m r v).level e v, e &&& (stop m r v).perm) else none

/-- The frame of a virtual page that the user may access. -/
def userPage (m : Mem) (r v : ℕ) : Option ℕ :=
  match translate m r v with
  | some (n, q) => if IsUser q then some n else none
  | none => none

/-- The virtual page `v` has a canonical address. -/
def Canonical (v : ℕ) : Prop := v < 2 ^ 35 ∨ 2 ^ 52 - 2 ^ 35 ≤ v ∧ v < 2 ^ 52

instance (v : ℕ) : Decidable (Canonical v) := inferInstanceAs (Decidable (_ ∨ _))

theorem canonical_of_lt {v : ℕ} (h : v < 2 ^ 35) : Canonical v := Or.inl h

theorem canonical_iff {va : ℕ} (h : va < 2 ^ 64) : vaIsCanonical va ↔ Canonical (va / 4096) := by
  rw [vaIsCanonical, Bool.or_eq_true, decide_eq_true_iff, decide_eq_true_iff, Canonical, VA_LOWMAX,
    VA_HIGHMIN]
  omega

/-- Canonical pages with the same indices are the same. -/
theorem eq_of_ix_eq {v v' : ℕ} (hv : Canonical v) (hv' : Canonical v')
    (h : ∀ k ≤ 3, ix v' k = ix v k) : v' = v := by
  have h0 := h 0 (by decide)
  have h1 := h 1 (by decide)
  have h2 := h 2 (by decide)
  have h3 := h 3 (by decide)
  simp only [ix, pow_zero, Nat.div_one, pow_one, Nat.reducePow] at h0 h1 h2 h3
  simp only [Canonical, Nat.reducePow, Nat.reduceSub] at hv hv'
  omega

/-- The physical addresses in the entries of the table are below 4 GiB. -/
def Below4G (m : Mem) (r : ℕ) : Prop := ∀ p ∈ tables m 3 r, ∀ i < 512, pageOf (m p i) < 2 ^ 20

/-- The bits of a large page's address below its size are 0, but for the lowest. -/
def LargeAligned (m : Mem) (r : ℕ) : Prop := ∀ v, 0 < (stop m r v).level →
  m (stop m r v).page (stop m r v).idx % 2 = 1 →
  pageOf (m (stop m r v).page (stop m r v).idx) / 2 * 2 % 512 ^ (stop m r v).level = 0

/-- A root is well-shaped: its tables form a tree, addresses in entries are below 4 GiB, and large
    pages are aligned. -/
structure Shaped (m : Mem) (r : ℕ) : Prop where
  tree : (tables m 3 r).Nodup
  bounded : Below4G m r
  large : LargeAligned m r

variable {m m' : Mem} {r v : ℕ}

theorem stop_page_mem : (stop m r v).page ∈ tables m 3 r := walk_page_mem

theorem Agree.stop (h : Agree m m' (tables m 3 r)) : stop m' r v = WeensyOS.stop m r v := h.walk

theorem Agree.tables (h : Agree m m' (tables m 3 r)) : tables m' 3 r = WeensyOS.tables m 3 r := by
  rw [WeensyOS.tables, WeensyOS.tables, h.subtables]

theorem Agree.translate (h : Agree m m' (WeensyOS.tables m 3 r)) :
    translate m' r v = WeensyOS.translate m r v := by
  rw [WeensyOS.translate, WeensyOS.translate, h.stop, h _ stop_page_mem]

theorem Agree.userPage (h : Agree m m' (WeensyOS.tables m 3 r)) :
    userPage m' r v = WeensyOS.userPage m r v := by
  rw [WeensyOS.userPage, WeensyOS.userPage, h.translate]

theorem Agree.below4G (h : Agree m m' (WeensyOS.tables m 3 r)) (hb : Below4G m r) : Below4G m' r := by
  intro p hp i hi
  rw [h.tables] at hp
  rw [h p hp]
  exact hb p hp i hi

theorem Agree.shaped (h : Agree m m' (WeensyOS.tables m 3 r)) (hs : Shaped m r) : Shaped m' r := by
  refine ⟨by rw [h.tables]; exact hs.tree, h.below4G hs.bounded, fun v hl hp => ?_⟩
  rw [h.stop] at hl hp ⊢
  rw [h _ stop_page_mem] at hp ⊢
  exact hs.large v hl hp

/-! ## Present pages -/

section
variable {n q : ℕ}

theorem and_odd {a b : ℕ} (ha : a % 2 = 1) (hb : b % 2 = 1) : (a &&& b) % 2 = 1 := by
  rw [← Nat.and_one_is_mod, Nat.and_assoc, Nat.and_one_is_mod b, hb, Nat.and_one_is_mod, ha]

/-- The links on the way of a walk are present. -/
theorem walk_perm_odd : ∀ {l t perm : ℕ}, perm % 2 = 1 → (walk m v l t perm).perm % 2 = 1
  | 0, t, perm, h => h
  | l + 1, t, perm, h => by
    by_cases hlink : IsLink (m t (ix v (l + 1)))
    · rw [walk_link hlink]
      exact walk_perm_odd (and_odd h ((isLink_iff _).1 hlink).1)
    · rw [walk_not_link hlink]
      exact h

theorem translate_eq_some (h : translate m r v = some (n, q)) :
    m (stop m r v).page (stop m r v).idx % 2 = 1 ∧
      n = frame (stop m r v).level (m (stop m r v).page (stop m r v).idx) v ∧
      q = m (stop m r v).page (stop m r v).idx &&& (stop m r v).perm := by
  rw [translate] at h
  split_ifs at h with he
  have heq := Prod.ext_iff.1 (Option.some.inj h)
  exact ⟨he, heq.1.symm, heq.2.symm⟩

/-- The permissions of a present page. -/
theorem translate_perm (h : translate m r v = some (n, q)) : q % 2 = 1 ∧ q < 4096 := by
  obtain ⟨he, -, rfl⟩ := translate_eq_some h
  refine ⟨and_odd he (walk_perm_odd (by decide)), ?_⟩
  have hle : (stop m r v).perm ≤ initialPerm := walk_perm_le
  exact lt_of_le_of_lt (Nat.and_le_right.trans hle) (by decide)

/-- Frames of low pages lie below 4 GiB. -/
theorem Shaped.frame_lt (hs : Shaped m r) (hv : v < 2 ^ 20) (h : translate m r v = some (n, q)) :
    n < 2 ^ 20 := by
  obtain ⟨he, rfl, -⟩ := translate_eq_some h
  have hb : pageOf (m (stop m r v).page (stop m r v).idx) < 2 ^ 20 :=
    hs.bounded _ stop_page_mem _ walk_idx_lt
  have hl3 : (stop m r v).level ≤ 3 := walk_level_le
  have hlarge := hs.large v
  generalize m (stop m r v).page (stop m r v).idx = e at *
  generalize (stop m r v).level = l at *
  rw [frame]
  split_ifs with hl
  · exact hb
  · have ha := hlarge (by omega) he
    rcases (by omega : l = 1 ∨ l = 2 ∨ l = 3) with rfl | rfl | rfl <;>
      simp only [Nat.reducePow] at * <;> omega

/-- A walk that grants everything leaves permissions as they are. -/
theorem pwu_and_full {p : ℕ} (h : pwu p = 7) (q : ℕ) :
    pwu q &&& p = pwu q ∧ pwu (q &&& p) = pwu q := by
  have h' : p &&& (PTE_P ||| PTE_W ||| PTE_U) = PTE_P ||| PTE_W ||| PTE_U := h
  constructor
  · rw [pwu, Nat.and_assoc, Nat.and_comm _ p, h']
  · rw [pwu, pwu, Nat.and_assoc, h']

end

/-! ## Positioned iterators -/

/-- The iterator over the table with root `r`, positioned at the address `va`. -/
def vmiterAt (m : Mem) (r va : ℕ) : Vmiter :=
  let st := stop m r (va / 4096)
  ⟨r * 4096, .entry st.page st.idx, st.level, st.perm, va⟩

theorem pageindex_eq (va l : ℕ) : pageindex va l = ix (va / 4096) l := by
  have h : (0x1FF : ℕ) = 2 ^ 9 - 1 := by norm_num
  have h' : (2 : ℕ) ^ (12 + l * 9) = 4096 * 512 ^ l := by
    rw [pow_add, Nat.mul_comm l 9, pow_mul]; norm_num
  rw [pageindex, ix, h, Nat.and_two_pow_sub_one_eq_mod, Nat.shiftRight_eq_div_pow, h',
    ← Nat.div_div_eq_div_mul]

theorem pageoffmask_eq (l : ℕ) : pageoffmask l = 2 ^ (12 + l * 9) - 1 := by
  rw [pageoffmask, Nat.shiftLeft_eq, one_mul]

theorem and_pageoffmask (x l : ℕ) : x &&& pageoffmask l = x % 2 ^ (12 + l * 9) := by
  rw [pageoffmask_eq, Nat.and_two_pow_sub_one_eq_mod]

theorem downLoop_eq (m : Mem) (va : ℕ) : ∀ l p perm,
    Vmiter.downLoop m va l (.entry p (pageindex va l)) perm =
      ((walk m (va / 4096) l p perm).level,
        .entry (walk m (va / 4096) l p perm).page (walk m (va / 4096) l p perm).idx,
        (walk m (va / 4096) l p perm).perm)
  | 0, p, perm => by rw [pageindex_eq]; rfl
  | l + 1, p, perm => by
    have hload : (Pep.entry p (pageindex va (l + 1))).load m = m p (ix (va / 4096) (l + 1)) := by
      rw [pageindex_eq]; rfl
    by_cases hlink : IsLink (m p (ix (va / 4096) (l + 1)))
    · rw [Vmiter.downLoop, if_pos (by rwa [hload]), hload, walk_link hlink, downLoop_eq]
    · rw [Vmiter.downLoop, if_neg (by rwa [hload]), walk_not_link hlink, pageindex_eq]

theorem down_eq {va l p perm r : ℕ}
    (hst : walk m (va / 4096) l p perm = stop m r (va / 4096))
    (hb : pageOf (m (stop m r (va / 4096)).page (stop m r (va / 4096)).idx) < 2 ^ 20) :
    Vmiter.down m ⟨r * 4096, .entry p (pageindex va l), l, perm, va⟩ = .ok (vmiterAt m r va) := by
  rw [Vmiter.down, downLoop_eq, hst]
  simp only [Pep.load, and_pamask]
  rw [if_neg (by omega)]
  rfl

theorem clearOffset_xor_eq_zero {va va' l : ℕ} (h : clearOffset (va ^^^ va') l = 0) :
    va / 2 ^ (12 + l * 9) = va' / 2 ^ (12 + l * 9) := by
  rw [clearOffset, and_pageoffmask] at h
  have h1 : (va ^^^ va') / 2 ^ (12 + l * 9) = 0 := by
    rw [Nat.div_eq_zero_iff]
    right
    have h2 := Nat.mod_lt (va ^^^ va') (Nat.two_pow_pos (12 + l * 9))
    omega
  rw [Nat.xor_div_two_pow] at h1
  exact Nat.xor_eq_zero_iff.1 h1

theorem ix_eq_of_div_eq {va va' l k : ℕ} (h : va / 2 ^ (12 + l * 9) = va' / 2 ^ (12 + l * 9))
    (hk : l ≤ k) : ix (va' / 4096) k = ix (va / 4096) k := by
  have h' : ∀ x : ℕ, x / 4096 / 512 ^ k = x / 2 ^ (12 + l * 9) / 512 ^ (k - l) := by
    intro x
    have : 4096 * 512 ^ k = 2 ^ (12 + l * 9) * 512 ^ (k - l) := by
      obtain ⟨d, rfl⟩ := Nat.exists_eq_add_of_le hk
      rw [Nat.add_sub_cancel_left, pow_add, pow_add, Nat.mul_comm l 9, pow_mul]
      norm_num
      ring
    rw [Nat.div_div_eq_div_mul, Nat.div_div_eq_div_mul, this]
  rw [ix, ix, h', h', h]

/-- **Positioning an iterator** gives the same iterator from wherever it stood. -/
theorem realFind_eq {va va' : ℕ} (hs : Shaped m r) (hva : Canonical (va' / 4096))
    (hlt : va' < 2 ^ 64) : (vmiterAt m r va).realFind m va' = .ok (vmiterAt m r va') := by
  have hb : ∀ w, pageOf (m (stop m r w).page (stop m r w).idx) < 2 ^ 20 :=
    fun w => hs.bounded _ stop_page_mem _ walk_idx_lt
  have hcan : vaIsCanonical va' = true := (canonical_iff hlt).2 hva
  rw [Vmiter.realFind, Vmiter.reposition]
  by_cases hroot : (vmiterAt m r va).level = 3 ∨
      clearOffset ((vmiterAt m r va).va ^^^ va') ((vmiterAt m r va).level + 1) ≠ 0
  · rw [if_pos hroot, if_pos hcan]
    have hr : (vmiterAt m r va).pt / PAGESIZE = r := by
      simp only [vmiterAt, PAGESIZE]; omega
    rw [hr]
    exact down_eq rfl (hb _)
  · rw [if_neg hroot]
    push Not at hroot
    have hdiv := clearOffset_xor_eq_zero hroot.2
    refine down_eq (l := (stop m r (va / 4096)).level) ?_ (hb _)
    refine (walk_resume fun k hk _ => ?_).symm
    exact ix_eq_of_div_eq hdiv hk

theorem create_eq {va : ℕ} (hs : Shaped m r) (hva : Canonical (va / 4096)) (hlt : va < 2 ^ 64) :
    Vmiter.create m (r * 4096) va = .ok (vmiterAt m r va) := by
  have hcan : vaIsCanonical va = true := (canonical_iff hlt).2 hva
  rw [Vmiter.create, Vmiter.realFind, Vmiter.reposition, if_pos (Or.inl rfl), if_pos hcan]
  have hr : r * 4096 / PAGESIZE = r := by rw [PAGESIZE]; omega
  simp only [hr]
  exact down_eq rfl (hs.bounded _ stop_page_mem _ walk_idx_lt)

/-! ## What a positioned iterator reads -/

theorem offset_eq (va l : ℕ) :
    va % 2 ^ (12 + l * 9) = va / 4096 % 512 ^ l * 4096 + va % 4096 := by
  have h : (2 : ℕ) ^ (12 + l * 9) = 4096 * 512 ^ l := by
    rw [pow_add, Nat.mul_comm l 9, pow_mul]; norm_num
  rw [h, Nat.mod_mul]
  ring

section
variable {va n q : ℕ}

theorem vmiterAt_pa (h : translate m r (va / 4096) = some (n, q)) :
    (vmiterAt m r va).pa m = n * 4096 + va % 4096 := by
  have hp : m (stop m r (va / 4096)).page (stop m r (va / 4096)).idx % 2 = 1 := by
    by_contra hp
    rw [translate, if_neg hp] at h
    cases h
  rw [translate, if_pos hp] at h
  have hn := congrArg Prod.fst (Option.some.inj h)
  simp only [Vmiter.pa, vmiterAt, Pep.load, and_one, and_pamask, and_pageoffmask, offset_eq] at hn ⊢
  rw [if_pos (by omega)]
  by_cases hl : (stop m r (va / 4096)).level = 0
  · rw [frame, if_pos hl] at hn
    rw [if_neg (by omega), hl, hn, pow_zero, Nat.mod_one, Nat.zero_mul, Nat.zero_add]
  · rw [frame, if_neg hl] at hn
    have hbit : ∀ x : ℕ, x * 4096 &&& 0x1000 = x % 2 * 4096 := by
      intro x
      calc x * 4096 &&& 0x1000 = x <<< 12 &&& 1 <<< 12 := by rw [Nat.shiftLeft_eq]; rfl
        _ = (x &&& 1) <<< 12 := Nat.shiftLeft_and_distrib.symm
        _ = x % 2 * 4096 := by rw [Nat.and_one_is_mod, Nat.shiftLeft_eq]
    rw [if_pos (by omega), hbit, ← hn]
    omega

theorem vmiterAt_pa_none (h : translate m r (va / 4096) = none) :
    (vmiterAt m r va).pa m = NEG_ONE := by
  have hp : ¬ m (stop m r (va / 4096)).page (stop m r (va / 4096)).idx % 2 = 1 := by
    intro hp
    rw [translate, if_pos hp] at h
    cases h
  simp only [Vmiter.pa, vmiterAt, Pep.load, and_one]
  rw [if_neg (by omega)]

theorem vmiterAt_permissions : (vmiterAt m r va).permissions m =
    match translate m r (va / 4096) with
    | some (_, q) => q
    | none => 0 := by
  simp only [Vmiter.permissions, vmiterAt, Pep.load, and_one, translate]
  by_cases hp : m (stop m r (va / 4096)).page (stop m r (va / 4096)).idx % 2 = 1
  · rw [if_pos (by omega), if_pos hp]
  · rw [if_neg (by omega), if_neg hp]

/-- An entry that is not present grants nothing. -/
theorem and_ne_of_even {e p q : ℕ} (he : e % 2 = 0) (hq : q % 2 = 1) : ¬ e &&& p &&& q = q := by
  intro h
  have h1 := congrArg (fun x => x.testBit 0) h
  simp [Nat.testBit_zero, he, hq] at h1

theorem vmiterAt_permits {p : ℕ} (hp : p % 2 = 1) : (vmiterAt m r va).permits m p = true ↔
    ∃ n q, translate m r (va / 4096) = some (n, q) ∧ q &&& p = p := by
  rw [Vmiter.permits, decide_eq_true_iff, translate]
  change m (stop m r (va / 4096)).page (stop m r (va / 4096)).idx &&&
    (stop m r (va / 4096)).perm &&& p
    = p ↔ _
  by_cases he : m (stop m r (va / 4096)).page (stop m r (va / 4096)).idx % 2 = 1
  · rw [if_pos he]
    constructor
    · intro h
      exact ⟨_, _, rfl, h⟩
    · rintro ⟨n, q, h, hq⟩
      have hperm := congrArg Prod.snd (Option.some.inj h)
      simp only at hperm
      rw [hperm]
      exact hq
  · rw [if_neg he]
    constructor
    · intro h
      exact absurd h (and_ne_of_even (by omega) hp)
    · rintro ⟨n, q, h, -⟩
      cases h

theorem vmiterAt_user : (vmiterAt m r va).user m = true ↔
    ∃ n q, translate m r (va / 4096) = some (n, q) ∧ IsUser q :=
  vmiterAt_permits (by decide)

theorem vmiterAt_writable : (vmiterAt m r va).writable m = true ↔
    ∃ n q, translate m r (va / 4096) = some (n, q) ∧ IsWritable q :=
  vmiterAt_permits (by decide)

theorem userPage_eq_some : userPage m r v = some n ↔
    ∃ q, translate m r v = some (n, q) ∧ IsUser q := by
  rw [userPage]
  cases h : translate m r v with
  | none => simp
  | some x =>
    obtain ⟨n', q'⟩ := x
    by_cases hq : IsUser q'
    · simp only [if_pos hq, Option.some.injEq, Prod.mk.injEq]
      constructor
      · rintro rfl; exact ⟨q', ⟨rfl, rfl⟩, hq⟩
      · rintro ⟨q, ⟨rfl, rfl⟩, -⟩; rfl
    · simp only [if_neg hq]
      constructor
      · intro h'; cases h'
      · rintro ⟨q, h', hq'⟩
        cases h'
        exact absurd hq' hq

end

/-! ## The two stores of `try_map` -/

/-- The memory after an empty table `n` has been linked at the end of the walk for `v`. -/
def linked (m : Mem) (r v n : ℕ) : Mem :=
  (m.fill n 0).set (stop m r v).page (stop m r v).idx (n * 4096 + 7)

section
variable {k n : ℕ}

theorem fill_of_ne {p w q : ℕ} (h : q ≠ p) (i : ℕ) : m.fill p w q i = m q i := if_neg h

@[simp] theorem fill_self {p w i : ℕ} : m.fill p w p i = w := if_pos rfl

theorem agree_fill {p w : ℕ} {pages : List ℕ} (h : p ∉ pages) : Agree m (m.fill p w) pages := by
  intro q hq i
  refine fill_of_ne ?_ i
  rintro rfl
  exact h hq

theorem walk_empty {l perm : ℕ} (h : ∀ i, m n i = 0) :
    walk m v l n perm = ⟨l, n, ix v l, perm⟩ := by
  cases l with
  | zero => rfl
  | succ l => exact walk_not_link (by rw [h]; decide)

theorem subtables_empty {l : ℕ} (h : ∀ i, m n i = 0) : subtables m l n = [] := by
  cases l with
  | zero => rfl
  | succ l =>
    rw [subtables_succ, List.flatMap_eq_nil_iff]
    intro i _
    rw [below, if_neg (by rw [h]; decide)]

theorem isLink_entry (n : ℕ) : IsLink (n * 4096 + 7) := by
  rw [isLink_iff]; omega

/-- The walk for `v` ends above level 0 at an entry that is absent, and the page `n` is no table:
    it can be linked there. -/
structure Hangs (m : Mem) (r v n k : ℕ) : Prop where
  tree : (tables m 3 r).Nodup
  level : (stop m r v).level = k + 1
  absent : m (stop m r v).page (stop m r v).idx % 2 = 0
  fresh : n ∉ tables m 3 r
  lt : n < 2 ^ 20

/-- The hypotheses under which a table is linked. -/
structure Linkable (m : Mem) (r v n k : ℕ) : Prop extends Hangs m r v n k where
  shaped : Shaped m r

theorem Hangs.ne (h : Hangs m r v n k) : (stop m r v).page ≠ n := by
  intro heq
  have hmem : (stop m r v).page ∈ tables m 3 r := stop_page_mem
  rw [heq] at hmem
  exact h.fresh hmem

theorem Hangs.empty (h : Hangs m r v n k) (i : ℕ) : linked m r v n n i = 0 := by
  rw [linked, set_page_ne h.ne.symm, fill_self]

/-- The stop of a page whose walk ends elsewhere. -/
theorem Hangs.stop_other (h : Hangs m r v n k) {v' : ℕ}
    (hne : ((stop m r v').page, (stop m r v').idx) ≠ ((stop m r v).page, (stop m r v).idx)) :
    stop (linked m r v n) r v' = stop m r v' ∧
      linked m r v n (stop m r v').page (stop m r v').idx =
        m (stop m r v').page (stop m r v').idx := by
  have hfill : Agree m (m.fill n 0) (tables m 3 r) := agree_fill h.fresh
  constructor
  · have hset := @walk_set_other (m.fill n 0) v v' (n * 4096 + 7) 3 r initialPerm initialPerm
      (by rw [hfill.tables]; exact h.tree)
      (by rw [hfill.walk, hfill.walk]; exact hne)
    rw [hfill.walk, hfill.walk] at hset
    exact hset
  · rw [linked, set_of_ne fun heq => hne (Prod.ext heq.1 heq.2), hfill _ stop_page_mem]

/-- The stop of a page whose walk goes on through the new table. -/
theorem Hangs.stop_same (h : Hangs m r v n k) {v' : ℕ}
    (heq : ((stop m r v').page, (stop m r v').idx) = ((stop m r v).page, (stop m r v).idx)) :
    stop (linked m r v n) r v' = ⟨k, n, ix v' k, (stop m r v').perm &&& (n * 4096 + 7)⟩ := by
  have hfill : Agree m (m.fill n 0) (tables m 3 r) := agree_fill h.fresh
  have hn : n < 2 ^ 40 := h.lt.trans (by norm_num)
  have hset := @walk_set_same (m.fill n 0) v v' (n * 4096 + 7) k (isLink_entry n) 3 r initialPerm
    initialPerm (by rw [hfill.tables]; exact h.tree)
    (by rw [hfill.walk, hfill.walk]; exact heq) (by rw [hfill.walk]; exact h.level)
  rw [hfill.walk, hfill.walk, pageOf_entry hn (by norm_num)] at hset
  refine hset.trans (walk_empty fun i => ?_)
  exact h.empty i

theorem Hangs.translate (h : Hangs m r v n k) (v' : ℕ) :
    translate (linked m r v n) r v' = WeensyOS.translate m r v' := by
  by_cases heq : ((stop m r v').page, (stop m r v').idx) = ((stop m r v).page, (stop m r v).idx)
  · obtain ⟨h1, h2⟩ := Prod.ext_iff.1 heq
    simp only at h1 h2
    have habsent := h.absent
    rw [WeensyOS.translate, WeensyOS.translate, h.stop_same heq]
    simp only [h.empty, h1, h2]
    rw [if_neg (by decide), if_neg (by omega)]
  · obtain ⟨h1, h2⟩ := h.stop_other heq
    rw [WeensyOS.translate, WeensyOS.translate, h1, h2]

theorem Hangs.subtables (h : Hangs m r v n k) :
    (subtables (linked m r v n) 3 r).Perm (WeensyOS.subtables m 3 r ++ [n]) := by
  have hfill : Agree m (m.fill n 0) (tables m 3 r) := agree_fill h.fresh
  have hn : n < 2 ^ 40 := h.lt.trans (by norm_num)
  have hset := @subtables_set_link (m.fill n 0) v (n * 4096 + 7) k (isLink_entry n) 3 r initialPerm
    (by rw [hfill.tables]; exact h.tree) (by rw [hfill.walk]; exact h.level)
  rw [hfill.walk, hfill.subtables, pageOf_entry hn (by norm_num), tables] at hset
  have hempty : WeensyOS.subtables (linked m r v n) k n = [] := subtables_empty h.empty
  change (WeensyOS.subtables (linked m r v n) 3 r).Perm
    (_ ++ n :: WeensyOS.subtables (linked m r v n) k n) at hset
  rwa [hempty] at hset

theorem Hangs.mem_tables (h : Hangs m r v n k) {p : ℕ} :
    p ∈ tables (linked m r v n) 3 r ↔ p ∈ tables m 3 r ∨ p = n := by
  rw [tables, tables, List.mem_cons, List.mem_cons, h.subtables.mem_iff, List.mem_append,
    List.mem_singleton, or_assoc]

theorem Hangs.tree_linked (h : Hangs m r v n k) : (tables (linked m r v n) 3 r).Nodup := by
  have hperm : (tables (linked m r v n) 3 r).Perm (tables m 3 r ++ [n]) := h.subtables.cons r
  rw [hperm.nodup_iff]
  exact List.nodup_append.2 ⟨h.tree, List.nodup_singleton n, by
    intro a ha b hb
    rw [List.mem_singleton] at hb
    rintro rfl
    exact h.fresh (hb ▸ ha)⟩

theorem Hangs.largeAligned (h : Hangs m r v n k) (hlarge : LargeAligned m r) :
    LargeAligned (linked m r v n) r := by
  intro v' hl hp
  by_cases heq : ((stop m r v').page, (stop m r v').idx) = ((stop m r v).page, (stop m r v).idx)
  · rw [h.stop_same heq] at hp
    simp only [h.empty] at hp
    cases hp
  · obtain ⟨h1, h2⟩ := h.stop_other heq
    rw [h1] at hl hp ⊢
    rw [h2] at hp ⊢
    exact hlarge v' hl hp

theorem Linkable.shaped_linked (h : Linkable m r v n k) : Shaped (linked m r v n) r := by
  refine ⟨h.tree_linked, fun p hp i hi => ?_, h.largeAligned h.shaped.large⟩
  · by_cases hset : p = (stop m r v).page ∧ i = (stop m r v).idx
    · obtain ⟨rfl, rfl⟩ := hset
      rw [linked, set_self, pageOf_entry (h.lt.trans (by norm_num)) (by norm_num)]
      exact h.lt
    · rcases h.mem_tables.1 hp with hp | rfl
      · have hpn : p ≠ n := fun hpn => h.fresh (hpn ▸ hp)
        rw [linked, set_of_ne hset, fill_of_ne hpn]
        exact h.shaped.bounded p hp i hi
      · rw [h.empty]
        decide

end

section
variable (htree : (tables m 3 r).Nodup) (hl : (stop m r v).level = 0)
include htree hl

theorem stop_set (e v' : ℕ) :
    stop (m.set (stop m r v).page (stop m r v).idx e) r v' = stop m r v' := walk_set_leaf htree hl

theorem tables_set (e : ℕ) :
    tables (m.set (stop m r v).page (stop m r v).idx e) 3 r = tables m 3 r :=
  congrArg (r :: ·) (subtables_set_leaf htree hl)

/-- The entry of another page. -/
theorem set_other {v' e : ℕ} (hv : Canonical v) (hv' : Canonical v') (hne : v' ≠ v) :
    m.set (stop m r v).page (stop m r v).idx e (stop m r v').page (stop m r v').idx =
      m (stop m r v').page (stop m r v').idx := by
  refine set_of_ne fun heq => hne (eq_of_ix_eq hv hv' fun k hk => ?_)
  exact (walk_same_path htree (Prod.ext heq.1 heq.2)).2 k
    (by rw [← stop, hl]; exact Nat.zero_le k) hk

theorem translate_set_other {v' e : ℕ} (hv : Canonical v) (hv' : Canonical v') (hne : v' ≠ v) :
    translate (m.set (stop m r v).page (stop m r v).idx e) r v' = translate m r v' := by
  rw [translate, translate, stop_set htree hl, set_other htree hl hv hv' hne]

/-- A walk that ends above level 0 does not end at the entry that was changed. -/
theorem set_high {v' e : ℕ} (hl' : (stop m r v').level ≠ 0) :
    m.set (stop m r v).page (stop m r v).idx e (stop m r v').page (stop m r v').idx =
      m (stop m r v').page (stop m r v').idx := by
  refine set_of_ne fun heq => hl' ?_
  have := (walk_same_path htree (Prod.ext heq.1 heq.2)).1
  rw [← stop, ← stop] at this
  rw [this, hl]

theorem largeAligned_set (hlarge : LargeAligned m r) (e : ℕ) :
    LargeAligned (m.set (stop m r v).page (stop m r v).idx e) r := by
  intro v' hl' hp
  rw [stop_set htree hl] at hl' hp ⊢
  rw [set_high htree hl hl'.ne'] at hp ⊢
  exact hlarge v' hl' hp

end

/-- The memory after the entry `n * 4096 + q` has been stored at the end of the walk for `v`. -/
def mapped (m : Mem) (r v n q : ℕ) : Mem :=
  m.set (stop m r v).page (stop m r v).idx (n * 4096 + q)

section
variable {n q : ℕ}

theorem stop_mapped (hs : Shaped m r) (hl : (stop m r v).level = 0) (v' : ℕ) :
    stop (mapped m r v n q) r v' = stop m r v' := stop_set hs.tree hl _ v'

theorem subtables_mapped (hs : Shaped m r) (hl : (stop m r v).level = 0) :
    subtables (mapped m r v n q) 3 r = subtables m 3 r := subtables_set_leaf hs.tree hl

/-- **Mapping a page** changes its translation, and no other. -/
theorem translate_mapped (hs : Shaped m r) (hl : (stop m r v).level = 0) (hn : n < 2 ^ 20)
    (hq : q < 4096) : translate (mapped m r v n q) r v =
      if q % 2 = 1 then some (n, q &&& (stop m r v).perm) else none := by
  have hperm : (stop m r v).perm < 4096 := lt_of_le_of_lt walk_perm_le (by decide)
  rw [translate, stop_mapped hs hl, mapped]
  simp only [set_self, frame, hl, if_true]
  rw [pageOf_entry (hn.trans (by norm_num)) hq, entry_and_perm hq hperm]
  congr 1
  simp only [eq_iff_iff]
  omega

theorem translate_mapped_other (hs : Shaped m r) (hl : (stop m r v).level = 0) {v' : ℕ}
    (hv : Canonical v) (hv' : Canonical v') (hne : v' ≠ v) :
    translate (mapped m r v n q) r v' = translate m r v' :=
  translate_set_other hs.tree hl hv hv' hne

theorem mapped_high (hs : Shaped m r) (hl : (stop m r v).level = 0) {v' : ℕ}
    (hl' : (stop m r v').level ≠ 0) :
    mapped m r v n q (stop m r v').page (stop m r v').idx =
      m (stop m r v').page (stop m r v').idx :=
  set_high hs.tree hl hl'

theorem shaped_mapped (hs : Shaped m r) (hl : (stop m r v).level = 0) (hn : n < 2 ^ 20)
    (hq : q < 4096) : Shaped (mapped m r v n q) r := by
  have htables : tables (mapped m r v n q) 3 r = tables m 3 r := tables_set hs.tree hl _
  refine ⟨by rw [htables]; exact hs.tree, fun p hp i hi => ?_,
    largeAligned_set hs.tree hl hs.large _⟩
  rw [htables] at hp
  by_cases hset : p = (stop m r v).page ∧ i = (stop m r v).idx
  · obtain ⟨rfl, rfl⟩ := hset
    rw [mapped, set_self, pageOf_entry (hn.trans (by norm_num)) hq]
    exact hn
  · rw [mapped, set_of_ne hset]
    exact hs.bounded p hp i hi

end

end CProj.WeensyOS
