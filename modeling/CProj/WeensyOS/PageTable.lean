/-
  Four-level page tables in memory.

  A virtual page `v` selects the index `ix v l` at each level.  `walk` follows the links from a
  table and ends at an entry (`Stop`): one at level 0, or one that links no lower table.
  `translate` is what that entry says about the page; `subtables` lists the tables below a table,
  children first, once for every link.

  A table is a tree if no page occurs twice in it.  Then changing the entry at which a walk ends
  changes that entry only: `walk_set_other`, `walk_set_same`, `subtables_set_link`.
-/
import Mathlib.Data.Nat.Bitwise
import Mathlib.Tactic.Linarith
import CProj.Lib.Lists
import CProj.WeensyOS.Vmiter

namespace CProj.WeensyOS

/-- The index of the virtual page `v` at a level. -/
def ix (v l : ℕ) : ℕ := v / 512 ^ l % 512

theorem ix_lt (v l : ℕ) : ix v l < 512 := Nat.mod_lt _ (by decide)

/-- Where a walk ends: at the entry `idx` of the page `page`, a table of the given level.  The
    permissions are those that the links on the way grant. -/
structure Stop where
  level : ℕ
  page : ℕ
  idx : ℕ
  perm : ℕ
  deriving DecidableEq, Repr

/-- The walk for the virtual page `v`, from the table `t` of level `l`. -/
def walk (m : Mem) (v : ℕ) : ℕ → ℕ → ℕ → Stop
  | 0, t, perm => ⟨0, t, ix v 0, perm⟩
  | l + 1, t, perm =>
    if IsLink (m t (ix v (l + 1))) then
      walk m v l (pageOf (m t (ix v (l + 1)))) (perm &&& m t (ix v (l + 1)))
    else ⟨l + 1, t, ix v (l + 1), perm⟩

/-- The tables below the table `t` of level `l`. -/
def subtables (m : Mem) : ℕ → ℕ → List ℕ
  | 0, _ => []
  | l + 1, t => (List.range 512).flatMap fun i =>
    if IsLink (m t i) then subtables m l (pageOf (m t i)) ++ [pageOf (m t i)] else []

/-- The tables from the table `t` of level `l` down. -/
def tables (m : Mem) (l t : ℕ) : List ℕ := t :: subtables m l t

variable {m m' : Mem} {v l t perm : ℕ}

theorem walk_link (h : IsLink (m t (ix v (l + 1)))) : walk m v (l + 1) t perm =
    walk m v l (pageOf (m t (ix v (l + 1)))) (perm &&& m t (ix v (l + 1))) := by
  rw [walk, if_pos h]

theorem walk_not_link (h : ¬ IsLink (m t (ix v (l + 1)))) :
    walk m v (l + 1) t perm = ⟨l + 1, t, ix v (l + 1), perm⟩ := by
  rw [walk, if_neg h]

theorem mem_subtables {p : ℕ} : p ∈ subtables m (l + 1) t ↔
    ∃ i < 512, IsLink (m t i) ∧ p ∈ tables m l (pageOf (m t i)) := by
  simp only [subtables, List.mem_flatMap, List.mem_range, tables]
  refine exists_congr fun i => and_congr_right fun _ => ?_
  by_cases h : IsLink (m t i)
  · simp only [h, if_true, true_and, List.mem_append, List.mem_cons, List.not_mem_nil, or_false]
    exact or_comm
  · simp [h]

theorem tables_child_subset {i p : ℕ} (hi : i < 512) (hlink : IsLink (m t i))
    (hp : p ∈ tables m l (pageOf (m t i))) : p ∈ tables m (l + 1) t :=
  List.mem_cons_of_mem _ (mem_subtables.2 ⟨i, hi, hlink, hp⟩)

theorem walk_page_mem : ∀ {l t perm : ℕ}, (walk m v l t perm).page ∈ tables m l t
  | 0, t, perm => by simp [walk, tables]
  | l + 1, t, perm => by
    by_cases h : IsLink (m t (ix v (l + 1)))
    · rw [walk_link h]
      exact tables_child_subset (ix_lt _ _) h walk_page_mem
    · rw [walk_not_link h]
      exact List.mem_cons_self

theorem walk_idx : ∀ {l t perm : ℕ}, (walk m v l t perm).idx = ix v (walk m v l t perm).level
  | 0, t, perm => rfl
  | l + 1, t, perm => by
    by_cases h : IsLink (m t (ix v (l + 1)))
    · rw [walk_link h]; exact walk_idx
    · rw [walk_not_link h]

theorem walk_idx_lt : (walk m v l t perm).idx < 512 := by
  rw [walk_idx]; exact ix_lt _ _

theorem walk_level_le : ∀ {l t perm : ℕ}, (walk m v l t perm).level ≤ l
  | 0, t, perm => le_rfl
  | l + 1, t, perm => by
    by_cases h : IsLink (m t (ix v (l + 1)))
    · rw [walk_link h]; exact walk_level_le.trans (Nat.le_succ l)
    · rw [walk_not_link h]

theorem walk_perm_le : ∀ {l t perm : ℕ}, (walk m v l t perm).perm ≤ perm
  | 0, t, perm => le_rfl
  | l + 1, t, perm => by
    by_cases h : IsLink (m t (ix v (l + 1)))
    · rw [walk_link h]; exact walk_perm_le.trans Nat.and_le_left
    · rw [walk_not_link h]

/-- A walk ends at level 0, or at an entry that is no link. -/
theorem walk_stop : ∀ {l t perm : ℕ}, 0 < (walk m v l t perm).level →
    ¬ IsLink (m (walk m v l t perm).page (walk m v l t perm).idx)
  | 0, t, perm, h => absurd h (lt_irrefl 0)
  | l + 1, t, perm, h => by
    by_cases hlink : IsLink (m t (ix v (l + 1)))
    · rw [walk_link hlink] at h ⊢; exact walk_stop h
    · rw [walk_not_link hlink]; exact hlink

/-- The walk for another page that shares the indices above the end of a walk goes on from
    there. -/
theorem walk_resume {v' : ℕ} : ∀ {l t perm : ℕ},
    (∀ k, (walk m v l t perm).level < k → k ≤ l → ix v' k = ix v k) →
    walk m v' l t perm = walk m v' (walk m v l t perm).level (walk m v l t perm).page
      (walk m v l t perm).perm
  | 0, t, perm, _ => rfl
  | l + 1, t, perm, h => by
    by_cases hlink : IsLink (m t (ix v (l + 1)))
    · rw [walk_link hlink] at h ⊢
      have hix : ix v' (l + 1) = ix v (l + 1) :=
        h (l + 1) (Nat.lt_succ_of_le walk_level_le) le_rfl
      rw [← walk_resume fun k hk hkl => h k hk (hkl.trans (Nat.le_succ l)),
        walk_link (by rwa [hix]), hix]
    · rw [walk_not_link hlink]

/-! ## Frames -/

/-- The memory `m'` agrees with `m` on the given pages. -/
def Agree (m m' : Mem) (pages : List ℕ) : Prop := ∀ p ∈ pages, ∀ i, m' p i = m p i

/-- A table depends only on its own pages. -/
theorem Agree.child {i : ℕ} (h : Agree m m' (tables m (l + 1) t)) (hi : i < 512)
    (hlink : IsLink (m t i)) : Agree m m' (tables m l (pageOf (m t i))) :=
  fun p hp => h p (tables_child_subset hi hlink hp)

theorem Agree.walk : ∀ {l t perm : ℕ}, Agree m m' (tables m l t) →
    walk m' v l t perm = WeensyOS.walk m v l t perm
  | 0, t, perm, _ => rfl
  | l + 1, t, perm, h => by
    have ht : m' t (ix v (l + 1)) = m t (ix v (l + 1)) := h t List.mem_cons_self _
    by_cases hlink : IsLink (m t (ix v (l + 1)))
    · rw [walk_link hlink, walk_link (by rwa [ht]), ht, (h.child (ix_lt _ _) hlink).walk]
    · rw [walk_not_link hlink, walk_not_link (by rwa [ht])]

theorem Agree.subtables : ∀ {l t : ℕ}, Agree m m' (tables m l t) →
    subtables m' l t = WeensyOS.subtables m l t
  | 0, t, _ => rfl
  | l + 1, t, h => by
    refine List.flatMap_congr fun i hi => ?_
    have ht : m' t i = m t i := h t List.mem_cons_self _
    by_cases hlink : IsLink (m t i)
    · rw [ht, if_pos hlink, if_pos hlink, (h.child (List.mem_range.1 hi) hlink).subtables]
    · rw [ht, if_neg hlink, if_neg hlink]

/-! ## Trees -/

section
variable {i j : ℕ}

/-- The tables below one entry of a table. -/
def below (m : Mem) (l t i : ℕ) : List ℕ :=
  if IsLink (m t i) then subtables m l (pageOf (m t i)) ++ [pageOf (m t i)] else []

theorem subtables_succ : subtables m (l + 1) t = (List.range 512).flatMap (below m l t) := rfl

theorem mem_below {p : ℕ} (h : IsLink (m t i)) :
    p ∈ below m l t i ↔ p ∈ tables m l (pageOf (m t i)) := by
  rw [below, if_pos h, tables, List.mem_append, List.mem_singleton, List.mem_cons, or_comm]

theorem nodup_child (h : (tables m (l + 1) t).Nodup) (hi : i < 512) (hlink : IsLink (m t i)) :
    (tables m l (pageOf (m t i))).Nodup := by
  have hsub := (List.nodup_cons.1 h).2
  have hb := nodup_of_nodup_flatMap hsub (List.mem_range.2 hi)
  rw [if_pos hlink] at hb
  exact (List.perm_append_singleton _ _).nodup_iff.1 hb

theorem root_not_mem_child (h : (tables m (l + 1) t).Nodup) (hi : i < 512)
    (hlink : IsLink (m t i)) : t ∉ tables m l (pageOf (m t i)) :=
  fun ht => (List.nodup_cons.1 h).1 (mem_subtables.2 ⟨i, hi, hlink, ht⟩)

theorem disjoint_children (h : (tables m (l + 1) t).Nodup) (hi : i < 512) (hj : j < 512)
    (hij : i ≠ j) (hli : IsLink (m t i)) (hlj : IsLink (m t j)) :
    List.Disjoint (tables m l (pageOf (m t i))) (tables m l (pageOf (m t j))) := by
  have hsub : ((List.range 512).flatMap (below m l t)).Nodup := (List.nodup_cons.1 h).2
  intro p hpi hpj
  exact disjoint_of_nodup_flatMap hsub (List.mem_range.2 hi) (List.mem_range.2 hj) hij
    ((mem_below hli).2 hpi) ((mem_below hlj).2 hpj)

/-- A walk from a child does not end in its parent. -/
theorem walk_page_ne_root (h : (tables m (l + 1) t).Nodup) (hi : i < 512) (hlink : IsLink (m t i)) :
    (walk m v l (pageOf (m t i)) perm).page ≠ t := by
  intro heq
  have hmem : (walk m v l (pageOf (m t i)) perm).page ∈ tables m l (pageOf (m t i)) := walk_page_mem
  rw [heq] at hmem
  exact root_not_mem_child h hi hlink hmem

/-- Walks from different children end in different pages. -/
theorem walk_page_not_mem (h : (tables m (l + 1) t).Nodup) (hi : i < 512) (hj : j < 512)
    (hij : i ≠ j) (hli : IsLink (m t i)) (hlj : IsLink (m t j)) :
    (walk m v l (pageOf (m t i)) perm).page ∉ tables m l (pageOf (m t j)) :=
  fun hmem => disjoint_children h hi hj hij hli hlj walk_page_mem hmem

end

theorem set_of_ne {p i e q j : ℕ} (h : ¬ (q = p ∧ j = i)) : m.set p i e q j = m q j := if_neg h

@[simp] theorem set_self {p i e : ℕ} : m.set p i e p i = e := if_pos ⟨rfl, rfl⟩

theorem set_page_ne {p i e q : ℕ} (h : q ≠ p) (j : ℕ) : m.set p i e q j = m q j :=
  set_of_ne fun hq => h hq.1

theorem set_walk_root {i idx e : ℕ} (h : (tables m (l + 1) t).Nodup) (hi : i < 512)
    (hlink : IsLink (m t i)) (j : ℕ) :
    m.set (walk m v l (pageOf (m t i)) perm).page idx e t j = m t j :=
  set_page_ne (walk_page_ne_root h hi hlink).symm j

theorem agree_set {p i e : ℕ} {pages : List ℕ} (h : p ∉ pages) : Agree m (m.set p i e) pages := by
  intro q hq j
  refine set_page_ne ?_ j
  rintro rfl
  exact h hq

/-- **The other walks.** A walk that ends at another entry does not notice the change of the entry
    at which the walk for `v` ends. -/
theorem walk_set_other {v' e : ℕ} : ∀ {l t perm perm' : ℕ}, (tables m l t).Nodup →
    ((walk m v' l t perm').page, (walk m v' l t perm').idx) ≠
      ((walk m v l t perm).page, (walk m v l t perm).idx) →
    walk (m.set (walk m v l t perm).page (walk m v l t perm).idx e) v' l t perm' =
      walk m v' l t perm'
  | 0, t, perm, perm', _, _ => rfl
  | l + 1, t, perm, perm', hN, hne => by
    have hi := ix_lt v (l + 1)
    have hi' := ix_lt v' (l + 1)
    by_cases hlink : IsLink (m t (ix v (l + 1)))
    · -- the change is below `t`
      rw [walk_link hlink] at hne ⊢
      have ht := fun idx => @set_walk_root m v l t (perm &&& m t (ix v (l + 1))) _ idx e hN hi hlink
      by_cases hlink' : IsLink (m t (ix v' (l + 1)))
      · rw [walk_link hlink'] at hne ⊢
        rw [walk_link (by rwa [ht]), ht]
        by_cases hix : ix v' (l + 1) = ix v (l + 1)
        · rw [hix] at hne ⊢
          exact walk_set_other (nodup_child hN hi hlink) hne
        · exact (agree_set (walk_page_not_mem hN hi hi' (Ne.symm hix) hlink hlink')).walk
      · rw [walk_not_link hlink', walk_not_link (by rwa [ht])]
    · -- the change is in `t`
      rw [walk_not_link hlink] at hne ⊢
      by_cases hix : ix v' (l + 1) = ix v (l + 1)
      · rw [walk_not_link (by rwa [hix]), hix] at hne
        exact absurd rfl hne
      · have ht : m.set t (ix v (l + 1)) e t (ix v' (l + 1)) = m t (ix v' (l + 1)) :=
          set_of_ne fun h => hix h.2
        by_cases hlink' : IsLink (m t (ix v' (l + 1)))
        · rw [walk_link hlink', walk_link (by rwa [ht]), ht]
          exact (agree_set (root_not_mem_child hN hi' hlink')).walk
        · rw [walk_not_link hlink', walk_not_link (by rwa [ht])]

/-- Walks that end at the same entry come along the same way. -/
theorem walk_same_path {v' : ℕ} : ∀ {l t perm perm' : ℕ}, (tables m l t).Nodup →
    ((walk m v' l t perm').page, (walk m v' l t perm').idx) =
      ((walk m v l t perm).page, (walk m v l t perm).idx) →
    (walk m v' l t perm').level = (walk m v l t perm).level ∧
      ∀ k, (walk m v l t perm).level ≤ k → k ≤ l → ix v' k = ix v k
  | 0, t, perm, perm', _, heq => by
    refine ⟨rfl, fun k _ hk => ?_⟩
    obtain rfl : k = 0 := by omega
    exact (Prod.ext_iff.1 heq).2
  | l + 1, t, perm, perm', hN, heq => by
    have hi := ix_lt v (l + 1)
    have hi' := ix_lt v' (l + 1)
    obtain ⟨hpage, hidx⟩ := Prod.ext_iff.1 heq
    simp only at hpage hidx
    by_cases hlink : IsLink (m t (ix v (l + 1)))
    · by_cases hlink' : IsLink (m t (ix v' (l + 1)))
      · rw [walk_link hlink, walk_link hlink'] at heq hpage ⊢
        by_cases hix : ix v' (l + 1) = ix v (l + 1)
        · rw [hix] at heq ⊢
          obtain ⟨h1, h2⟩ := walk_same_path (nodup_child hN hi hlink) heq
          refine ⟨h1, fun k hk hkl => ?_⟩
          rcases Nat.lt_or_ge l k with hlt | hge
          · obtain rfl : k = l + 1 := by omega
            exact hix
          · exact h2 k hk hge
        · have hmem := @walk_page_mem m v l (pageOf (m t (ix v (l + 1))))
            (perm &&& m t (ix v (l + 1)))
          rw [← hpage] at hmem
          exact (walk_page_not_mem hN hi' hi hix hlink' hlink hmem).elim
      · rw [walk_link hlink, walk_not_link hlink'] at hpage
        exact (walk_page_ne_root hN hi hlink hpage.symm).elim
    · by_cases hlink' : IsLink (m t (ix v' (l + 1)))
      · rw [walk_not_link hlink, walk_link hlink'] at hpage
        exact (walk_page_ne_root hN hi' hlink' hpage).elim
      · rw [walk_not_link hlink, walk_not_link hlink'] at hidx ⊢
        refine ⟨rfl, fun k hk hkl => ?_⟩
        obtain rfl : k = l + 1 := by simp only at hk; omega
        exact hidx

/-- **The walk that is continued.** A walk that ends at the entry where the walk for `v` ends goes
    on through a link that is stored there. -/
theorem walk_set_same {v' e k : ℕ} (he : IsLink e) : ∀ {l t perm perm' : ℕ}, (tables m l t).Nodup →
    ((walk m v' l t perm').page, (walk m v' l t perm').idx) =
      ((walk m v l t perm).page, (walk m v l t perm).idx) →
    (walk m v l t perm).level = k + 1 →
    walk (m.set (walk m v l t perm).page (walk m v l t perm).idx e) v' l t perm' =
      walk (m.set (walk m v l t perm).page (walk m v l t perm).idx e) v' k (pageOf e)
        ((walk m v' l t perm').perm &&& e)
  | 0, t, perm, perm', _, _, hk => by cases hk
  | l + 1, t, perm, perm', hN, heq, hk => by
    have hi := ix_lt v (l + 1)
    obtain ⟨hlev, hpath⟩ := walk_same_path hN heq
    have hix : ix v' (l + 1) = ix v (l + 1) := hpath (l + 1) walk_level_le le_rfl
    by_cases hlink : IsLink (m t (ix v (l + 1)))
    · have hlink' : IsLink (m t (ix v' (l + 1))) := by rwa [hix]
      rw [walk_link hlink] at hk heq ⊢
      rw [walk_link hlink', hix] at heq ⊢
      have ht := fun idx => @set_walk_root m v l t (perm &&& m t (ix v (l + 1))) _ idx e hN hi hlink
      rw [walk_link (by rwa [ht, hix]), ht, hix]
      exact walk_set_same he (nodup_child hN hi hlink) heq hk
    · have hlink' : ¬ IsLink (m t (ix v' (l + 1))) := by rwa [hix]
      rw [walk_not_link hlink] at hk ⊢
      obtain rfl : l = k := Nat.succ.inj hk
      rw [walk_not_link hlink', walk_link (by rw [hix, set_self]; exact he), hix, set_self]

/-- **The tables after a link has been stored** at the end of a walk. -/
theorem subtables_set_link {e k : ℕ} (he : IsLink e) : ∀ {l t perm : ℕ}, (tables m l t).Nodup →
    (walk m v l t perm).level = k + 1 →
    (subtables (m.set (walk m v l t perm).page (walk m v l t perm).idx e) l t).Perm
      (subtables m l t ++
        tables (m.set (walk m v l t perm).page (walk m v l t perm).idx e) k (pageOf e))
  | 0, t, perm, _, hk => by cases hk
  | l + 1, t, perm, hN, hk => by
    have hi := ix_lt v (l + 1)
    refine flatMap_update_perm List.nodup_range (List.mem_range.2 hi) (fun j hj hne => ?_) ?_
    · -- the tables below the other entries
      have hj' := List.mem_range.1 hj
      by_cases hlink : IsLink (m t (ix v (l + 1)))
      · rw [walk_link hlink, set_page_ne (walk_page_ne_root hN hi hlink).symm]
        by_cases hlj : IsLink (m t j)
        · rw [if_pos hlj, if_pos hlj,
            (agree_set (walk_page_not_mem hN hi hj' (Ne.symm hne) hlink hlj)).subtables]
        · rw [if_neg hlj, if_neg hlj]
      · rw [walk_not_link hlink, set_of_ne fun h => hne h.2]
        by_cases hlj : IsLink (m t j)
        · rw [if_pos hlj, if_pos hlj, (agree_set (root_not_mem_child hN hj' hlj)).subtables]
        · rw [if_neg hlj, if_neg hlj]
    · by_cases hlink : IsLink (m t (ix v (l + 1)))
      · rw [walk_link hlink] at hk ⊢
        rw [set_page_ne (walk_page_ne_root hN hi hlink).symm, if_pos hlink, if_pos hlink]
        have ih := subtables_set_link he (nodup_child hN hi hlink) hk
        refine (ih.append_right _).trans ?_
        rw [List.append_assoc, List.append_assoc]
        exact List.Perm.append_left _ List.perm_append_comm
      · rw [walk_not_link hlink] at hk ⊢
        obtain rfl : l = k := Nat.succ.inj hk
        simp only [set_self, if_pos he, if_neg hlink, List.nil_append]
        exact List.perm_append_singleton _ _

/-! ## Changes below level 1 -/

/-- The memory `m'` agrees with `m` on the tables that no walk from `t` ends in at level 0. -/
def UpperAgree (m m' : Mem) (l t : ℕ) : Prop :=
  ∀ p ∈ tables m l t, (∀ v perm, (walk m v l t perm).page = p → (walk m v l t perm).level ≠ 0) →
    ∀ i, m' p i = m p i

section
variable {i : ℕ}

theorem UpperAgree.root (h : UpperAgree m m' (l + 1) t) (hN : (tables m (l + 1) t).Nodup) (i : ℕ) :
    m' t i = m t i := by
  refine h t List.mem_cons_self (fun v perm hpage hl => ?_) i
  by_cases hlink : IsLink (m t (ix v (l + 1)))
  · rw [walk_link hlink] at hpage
    exact walk_page_ne_root hN (ix_lt v (l + 1)) hlink hpage
  · rw [walk_not_link hlink] at hl
    cases hl

theorem UpperAgree.child (h : UpperAgree m m' (l + 1) t) (hN : (tables m (l + 1) t).Nodup)
    (hi : i < 512)
    (hlink : IsLink (m t i)) : UpperAgree m m' l (pageOf (m t i)) := by
  intro p hp hleaf
  refine h p (List.mem_cons_of_mem _ (mem_subtables.2 ⟨i, hi, hlink, hp⟩)) fun v perm hpage hl => ?_
  by_cases hlv : IsLink (m t (ix v (l + 1)))
  · rw [walk_link hlv] at hpage hl
    by_cases hix : ix v (l + 1) = i
    · rw [hix] at hpage hl
      exact hleaf _ _ hpage hl
    · exact disjoint_children hN (ix_lt v (l + 1)) hi hix hlv hlink (hpage ▸ walk_page_mem) hp
  · rw [walk_not_link hlv] at hl
    cases hl

end

theorem UpperAgree.walk : ∀ {l t perm : ℕ}, UpperAgree m m' l t → (tables m l t).Nodup →
    walk m' v l t perm = WeensyOS.walk m v l t perm
  | 0, t, perm, _, _ => rfl
  | l + 1, t, perm, h, hN => by
    have hi := ix_lt v (l + 1)
    have ht := h.root hN (ix v (l + 1))
    by_cases hlink : IsLink (m t (ix v (l + 1)))
    · rw [walk_link hlink, walk_link (by rwa [ht]), ht]
      exact (h.child hN hi hlink).walk (nodup_child hN hi hlink)
    · rw [walk_not_link hlink, walk_not_link (by rwa [ht])]

theorem UpperAgree.subtables : ∀ {l t : ℕ}, UpperAgree m m' l t → (tables m l t).Nodup →
    subtables m' l t = WeensyOS.subtables m l t
  | 0, t, _, _ => rfl
  | l + 1, t, h, hN => by
    rw [WeensyOS.subtables, WeensyOS.subtables]
    refine List.flatMap_congr fun i hi => ?_
    have hi' := List.mem_range.1 hi
    rw [h.root hN i]
    by_cases hlink : IsLink (m t i)
    · rw [if_pos hlink, if_pos hlink, (h.child hN hi' hlink).subtables (nodup_child hN hi' hlink)]
    · rw [if_neg hlink, if_neg hlink]

theorem upperAgree_set {e : ℕ} (hk : (WeensyOS.walk m v l t perm).level = 0) :
    UpperAgree m (m.set (WeensyOS.walk m v l t perm).page (WeensyOS.walk m v l t perm).idx e) l t := by
  intro p _ hleaf i
  exact set_page_ne (fun hp => hleaf v perm hp.symm hk) i

/-- The tables after an entry of level 0 has been stored. -/
theorem subtables_set_leaf {e : ℕ} (hN : (tables m l t).Nodup)
    (hk : (walk m v l t perm).level = 0) :
    subtables (m.set (walk m v l t perm).page (walk m v l t perm).idx e) l t = subtables m l t :=
  (upperAgree_set hk).subtables hN

/-- The walk to an entry of level 0 that has been changed. -/
theorem walk_set_leaf {v' e perm' : ℕ} (hN : (tables m l t).Nodup)
    (hk : (walk m v l t perm).level = 0) :
    walk (m.set (walk m v l t perm).page (walk m v l t perm).idx e) v' l t perm' =
      walk m v' l t perm' :=
  (upperAgree_set hk).walk hN

end CProj.WeensyOS
