/-
  Where an iterator stands.

  An iterator that is moved keeps its level, its entry and its permissions if the new address lies
  in the region of the table it points into, and starts again at the root otherwise.  It stands
  somewhere on the way of the walk for its address (`Valid`); from there, or from the root, it goes
  down to the same entry (`Valid.realFind`).  A store at the end of a walk leaves every way as it is
  (`OnPath.set`), so that an iterator stays valid while others change the table.
-/
import CProj.WeensyOS.Alloc

namespace CProj.WeensyOS

variable {m m' : Mem} {r v w l t perm k p q : ℕ}

/-! ## The way of a walk -/

/-- The walk for the page `v` from the table `t` of level `l` passes the table `p` of level `k`,
    with the permissions `q`. -/
inductive OnPath (m : Mem) (v : ℕ) : ℕ → ℕ → ℕ → ℕ → ℕ → ℕ → Prop
  | here {l t perm : ℕ} : OnPath m v l t perm l t perm
  | down {l t perm k p q : ℕ} (hlink : IsLink (m t (ix v (l + 1))))
    (h : OnPath m v l (pageOf (m t (ix v (l + 1)))) (perm &&& m t (ix v (l + 1))) k p q) :
    OnPath m v (l + 1) t perm k p q

theorem OnPath.walk (h : OnPath m v l t perm k p q) :
    walk m v l t perm = WeensyOS.walk m v k p q := by
  induction h with
  | here => rfl
  | down hlink _ ih => rw [walk_link hlink, ih]

theorem OnPath.le (h : OnPath m v l t perm k p q) : k ≤ l := by
  induction h with
  | here => exact le_rfl
  | down _ _ ih => omega

/-- Another page with the same indices above the level `k`. -/
theorem OnPath.congr (h : OnPath m v l t perm k p q) (hix : ∀ j, k < j → j ≤ l → ix w j = ix v j) :
    OnPath m w l t perm k p q := by
  induction h with
  | here => exact .here
  | @down l t perm k p q hlink h ih =>
    have hw : ix w (l + 1) = ix v (l + 1) := hix (l + 1) (Nat.lt_succ_of_le h.le) le_rfl
    have hrest := ih fun j hj hjl => hix j hj (hjl.trans (Nat.le_succ l))
    rw [← hw] at hlink hrest
    exact .down hlink hrest

theorem onPath_walk : ∀ {l t perm : ℕ}, OnPath m v l t perm (walk m v l t perm).level
    (walk m v l t perm).page (walk m v l t perm).perm
  | 0, t, perm => .here
  | l + 1, t, perm => by
    by_cases hlink : IsLink (m t (ix v (l + 1)))
    · rw [walk_link hlink]
      exact .down hlink onPath_walk
    · rw [walk_not_link hlink]
      exact .here

theorem OnPath.agree (h : OnPath m w l t perm k p q) : Agree m m' (tables m l t) →
    OnPath m' w l t perm k p q := by
  induction h with
  | here => intro _; exact .here
  | @down l t perm k p q hlink _ ih =>
    intro hagree
    have ht : m' t (ix w (l + 1)) = m t (ix w (l + 1)) := hagree t List.mem_cons_self _
    have hrest := ih (hagree.child (ix_lt _ _) hlink)
    rw [← ht] at hlink hrest
    exact .down hlink hrest

/-- **A store at the end of a walk** changes no way: that entry is of level 0, or no link. -/
theorem OnPath.set {e : ℕ} (h : OnPath m w l t perm k p q) : ∀ {perm' : ℕ}, (tables m l t).Nodup →
    OnPath (m.set (WeensyOS.walk m v l t perm').page (WeensyOS.walk m v l t perm').idx e) w l t perm
      k p q := by
  induction h with
  | here => intro perm' _; exact .here
  | @down l t perm k p q hlink h ih =>
    intro perm' hN
    have hi := ix_lt v (l + 1)
    have hi' := ix_lt w (l + 1)
    by_cases hlink' : IsLink (m t (ix v (l + 1)))
    · -- the change is below `t`
      rw [walk_link hlink']
      have ht := fun idx => @set_walk_root m v l t
        (perm' &&& m t (ix v (l + 1))) _ idx e hN hi hlink'
      refine .down (by rwa [ht]) ?_
      rw [ht]
      by_cases hix : ix w (l + 1) = ix v (l + 1)
      · rw [← hix]
        exact ih (nodup_child hN hi' hlink)
      · exact h.agree (agree_set (walk_page_not_mem hN hi hi' (Ne.symm hix) hlink' hlink))
    · -- the change is in `t`, at an entry that is no link
      rw [walk_not_link hlink']
      have hix : ix w (l + 1) ≠ ix v (l + 1) := by
        intro hix
        rw [hix] at hlink
        exact hlink' hlink
      have ht : m.set t (ix v (l + 1)) e t (ix w (l + 1)) = m t (ix w (l + 1)) :=
        set_of_ne fun heq => hix heq.2
      refine .down (by rwa [ht]) ?_
      rw [ht]
      exact h.agree (agree_set (root_not_mem_child hN hi' hlink))

theorem OnPath.linked {n j : ℕ} (h : OnPath m w 3 r perm k p q) (hh : Hangs m r v n j) :
    OnPath (linked m r v n) w 3 r perm k p q := by
  have hfill : Agree m (m.fill n 0) (tables m 3 r) := agree_fill hh.fresh
  have hset := @OnPath.set (m.fill n 0) v w 3 r perm k p q (n * 4096 + 7)
    (h.agree hfill) initialPerm
    (by rw [hfill.tables]; exact hh.tree)
  rw [hfill.walk] at hset
  exact hset

/-! ## New iterators -/

/-- The iterator at a non-canonical address. -/
def vmiterNowhere (r va : ℕ) : Vmiter := ⟨r * 4096, .zeroPe, 3, 0, va⟩

/-- What `down` does from a table on the way. -/
theorem down_walk (va l p perm pt : ℕ) :
    Vmiter.down m ⟨pt, .entry p (pageindex va l), l, perm, va⟩ =
      if 2 ^ 20 ≤ pageOf (m (walk m (va / 4096) l p perm).page (walk m (va / 4096) l p perm).idx) then
        .error .panic
      else .ok ⟨pt, .entry (walk m (va / 4096) l p perm).page (walk m (va / 4096) l p perm).idx,
        (walk m (va / 4096) l p perm).level, (walk m (va / 4096) l p perm).perm, va⟩ := by
  rw [Vmiter.down, downLoop_eq]
  simp only [Pep.load, and_pamask]
  refine if_congr ?_ rfl rfl
  omega

theorem create_canonical {va : ℕ} (hva : vaIsCanonical va = true) :
    Vmiter.create m (r * 4096) va =
      if 2 ^ 20 ≤ pageOf (m (stop m r (va / 4096)).page (stop m r (va / 4096)).idx) then .error .panic
      else .ok (vmiterAt m r va) := by
  rw [Vmiter.create, Vmiter.realFind, Vmiter.reposition, if_pos (Or.inl rfl), if_pos hva, page_div]
  exact down_walk va 3 r initialPerm (r * 4096)

theorem create_not_canonical {va : ℕ} (hva : vaIsCanonical va = false) :
    Vmiter.create m (r * 4096) va = .ok (vmiterNowhere r va) := by
  rw [Vmiter.create, Vmiter.realFind, Vmiter.reposition, if_pos (Or.inl rfl),
    if_neg (by rw [hva]; decide)]
  have hloop : Vmiter.downLoop m va 3 .zeroPe 0 = (3, .zeroPe, 0) :=
    if_neg (show ¬ IsLink 0 by decide)
  rw [Vmiter.down]
  simp only [hloop]
  exact if_neg (show ¬ 0 &&& PTE_PAMASK ≥ 0x100000000 by decide)

/-! ## Valid iterators -/

/-- The iterator stands on the way of the walk for its address, in the table with root `r`. -/
structure Valid (m : Mem) (r : ℕ) (it : Vmiter) : Prop where
  pt : it.pt = r * 4096
  lt : it.va < 2 ^ 64
  path : vaIsCanonical it.va = true ∧ (∃ p, it.pep = .entry p (pageindex it.va it.level) ∧
      OnPath m (it.va / 4096) 3 r initialPerm it.level p it.perm) ∨
    vaIsCanonical it.va = false ∧ it = vmiterNowhere r it.va

theorem valid_vmiterAt {va : ℕ} (hva : vaIsCanonical va = true) (hlt : va < 2 ^ 64) :
    Valid m r (vmiterAt m r va) := by
  refine ⟨rfl, hlt, Or.inl ⟨hva, (stop m r (va / 4096)).page, ?_, onPath_walk⟩⟩
  rw [pageindex_eq]
  exact congrArg _ walk_idx

/-- A new iterator is valid, and stands at its address. -/
theorem create_valid {va : ℕ} {it : Vmiter} (h : Vmiter.create m (r * 4096) va = .ok it)
    (hlt : va < 2 ^ 64) : Valid m r it ∧ it.va = va := by
  cases hva : vaIsCanonical va with
  | true =>
    rw [create_canonical hva] at h
    split_ifs at h
    cases h
    exact ⟨valid_vmiterAt hva hlt, rfl⟩
  | false =>
    rw [create_not_canonical hva] at h
    cases h
    exact ⟨⟨rfl, hlt, Or.inr ⟨hva, rfl⟩⟩, rfl⟩

/-- Addresses in one region below the root are canonical, or not, together. -/
theorem canonical_congr {va va' : ℕ} (hk : k ≤ 3)
    (h : va / 2 ^ (12 + k * 9) = va' / 2 ^ (12 + k * 9)) :
    vaIsCanonical va = vaIsCanonical va' := by
  have h3 : va / 2 ^ 39 = va' / 2 ^ 39 := by
    have hsplit : ∀ x : ℕ, x / 2 ^ 39 = x / 2 ^ (12 + k * 9) / 2 ^ (27 - k * 9) := by
      intro x
      rw [Nat.div_div_eq_div_mul, ← pow_add]
      congr 2
      omega
    rw [hsplit, hsplit, h]
  rw [vaIsCanonical, vaIsCanonical, VA_LOWMAX, VA_HIGHMIN, Bool.eq_iff_iff, Bool.or_eq_true,
    Bool.or_eq_true, decide_eq_true_iff, decide_eq_true_iff, decide_eq_true_iff, decide_eq_true_iff]
  omega

/-- **Moving an iterator** has the same result as making a new one. -/
theorem Valid.realFind {it : Vmiter} (h : Valid m r it) (va : ℕ) :
    it.realFind m va = Vmiter.create m (r * 4096) va := by
  obtain ⟨pt, pep, level, perm, va₀⟩ := it
  obtain ⟨rfl, -, hpath⟩ := h
  simp only at hpath
  rw [Vmiter.realFind, Vmiter.create, Vmiter.realFind]
  by_cases hroot : level = 3 ∨ clearOffset (va₀ ^^^ va) (level + 1) ≠ 0
  · rw [Vmiter.reposition, Vmiter.reposition, if_pos hroot, if_pos (Or.inl rfl)]
  · have hroot' := hroot
    push Not at hroot'
    rcases hpath with ⟨hcan, p, rfl, honPath⟩ | ⟨-, hnowhere⟩
    swap
    · cases hnowhere
      exact absurd rfl hroot'.1
    have hle := honPath.le
    have hdiv := clearOffset_xor_eq_zero hroot'.2
    have hcan' : vaIsCanonical va = true := (canonical_congr (by omega) hdiv).symm.trans hcan
    have hwalk : walk m (va / 4096) 3 r initialPerm = walk m (va / 4096) level p perm :=
      (honPath.congr fun j hj _ => ix_eq_of_div_eq hdiv hj).walk
    rw [Vmiter.reposition, if_neg hroot, Vmiter.reposition, if_pos (Or.inl rfl), if_pos hcan',
      page_div]
    simp only
    rw [down_walk, down_walk, hwalk]

/-- An iterator stays valid while a table is linked. -/
theorem Valid.linked {it : Vmiter} {n j : ℕ} (h : Valid m r it) (hh : Hangs m r v n j) :
    Valid (linked m r v n) r it := by
  refine ⟨h.pt, h.lt, h.path.imp_left ?_⟩
  rintro ⟨hcan, p, hpep, honPath⟩
  exact ⟨hcan, p, hpep, honPath.linked hh⟩

/-- An iterator stays valid while an entry at the end of a walk is stored. -/
theorem Valid.set {it : Vmiter} {e : ℕ} (h : Valid m r it) (htree : (tables m 3 r).Nodup) :
    Valid (m.set (stop m r v).page (stop m r v).idx e) r it := by
  refine ⟨h.pt, h.lt, h.path.imp_left ?_⟩
  rintro ⟨hcan, p, hpep, honPath⟩
  exact ⟨hcan, p, hpep, honPath.set htree⟩

end CProj.WeensyOS
