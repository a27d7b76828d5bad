/-
  What `try_map` does to a page table: it links tables that no translation notices, and then stores
  one entry of level 0.

  Nothing is asked of the table but that it is a tree, and nothing of the allocator but that no free
  page is one of its tables.
-/
import CProj.WeensyOS.Positions
import CProj.WeensyOS.Checks

namespace CProj.WeensyOS

variable {L : Layout} {s s' t : State} {r v pa perm : ℕ} {k : ℤ} {it it' : Vmiter}

/-- The state after the entry `e` has been stored at the end of the walk for the page `v`. -/
def State.put (s : State) (r v e : ℕ) : State :=
  { s with mem := s.mem.set (stop s.mem r v).page (stop s.mem r v).idx e }

/-- The address that `try_map` maps to. -/
def mapAddr (pa perm : ℕ) : ℕ := if pa = NEG_ONE ∧ perm = 0 then 0 else pa

/-- **`try_map`** from a positioned iterator: it runs out of memory, stores an entry, or does nothing
    because there is neither a table nor anything to map. -/
theorem tryMapIt_spec {I : State → Prop} (hI : HangInv L r v I) (hinv : I s)
    (htree : (tables s.mem 3 r).Nodup) (hfree : FreeOutside L s r)
    (hres : (vmiterAt s.mem r (v * 4096)).tryMapIt L s pa perm = .ok (k, it', s')) :
    ∃ t new, Hung L r s t new ∧ I t ∧ pwu (stop t.mem r v).perm = pwu (stop s.mem r v).perm ∧
      it' = vmiterAt t.mem r (v * 4096) ∧
      (k = -1 ∧ s' = t ∨
        k = 0 ∧ (stop t.mem r v).level = 0 ∧ s' = t.put r v (mapAddr pa perm ||| perm) ∨
        k = 0 ∧ perm = 0 ∧ s' = t) := by
  rw [Vmiter.tryMapIt] at hres
  obtain ⟨-, -, hres⟩ := bind_eq_ok.1 hres
  obtain ⟨⟨ok, it₁, t⟩, hloop, hres⟩ := bind_eq_ok.1 hres
  rw [vmiterAt_level] at hloop
  -- what is left after the loop
  have hend : ∀ new, it₁ = vmiterAt t.mem r (v * 4096) → Hung L r s t new → I t →
      pwu (stop t.mem r v).perm = pwu (stop s.mem r v).perm →
      (ok = true → (stop t.mem r v).level = 0 ∨ perm = 0) →
      ∃ t new, Hung L r s t new ∧ I t ∧ pwu (stop t.mem r v).perm = pwu (stop s.mem r v).perm ∧
        it' = vmiterAt t.mem r (v * 4096) ∧
        (k = -1 ∧ s' = t ∨
          k = 0 ∧ (stop t.mem r v).level = 0 ∧ s' = t.put r v (mapAddr pa perm ||| perm) ∨
          k = 0 ∧ perm = 0 ∧ s' = t) := by
    intro new hit hg hinv' hpwu hok
    subst hit
    refine ⟨t, new, hg, hinv', hpwu, ?_⟩
    cases ok with
    | false =>
      cases hres
      exact ⟨rfl, Or.inl ⟨rfl, rfl⟩⟩
    | true =>
      simp only [if_true, vmiterAt_level] at hres
      by_cases hl : (stop t.mem r v).level = 0
      · simp only [hl, if_true, vmiterAt_pep] at hres
        cases hres
        exact ⟨rfl, Or.inr (Or.inl ⟨rfl, hl, rfl⟩)⟩
      · simp only [hl, if_false] at hres
        cases hres
        exact ⟨rfl, Or.inr (Or.inr ⟨rfl, (hok rfl).resolve_left hl, rfl⟩)⟩
  by_cases hp : 0 < (stop s.mem r v).level ∧ perm ≠ 0
  · obtain ⟨hl, hp⟩ := hp
    -- the assertion of the loop
    have habs : s.mem (stop s.mem r v).page (stop s.mem r v).idx % 2 = 0 := by
      obtain ⟨n, hn⟩ : ∃ n, (stop s.mem r v).level = n + 1 := ⟨_, (Nat.succ_pred_eq_of_pos hl).symm⟩
      rw [hn, Vmiter.tryMapLoop, if_pos ⟨by rw [vmiterAt_level]; exact hl, hp⟩] at hloop
      obtain ⟨_, hassert, -⟩ := bind_eq_ok.1 hloop
      by_contra hne
      rw [assert_error (by rw [vmiterAt_pep, Pep.load, and_one]; exact hne)] at hassert
      cases hassert
    obtain ⟨ok', t', new, hloop', hg, hinv', hpwu, -, htrue, -⟩ :=
      tryMapLoop_hangs hp hI _ s hinv htree hfree rfl fun _ => habs
    rw [hloop'] at hloop
    cases hloop
    exact hend new rfl hg hinv' hpwu fun hok => Or.inl (htrue hok)
  · have hloop' : (vmiterAt s.mem r (v * 4096)).tryMapLoop L perm (stop s.mem r v).level s =
        .ok (true, vmiterAt s.mem r (v * 4096), s) := by
      cases hl : (stop s.mem r v).level with
      | zero => rfl
      | succ n =>
        rw [Vmiter.tryMapLoop, if_neg]
        rintro ⟨h1, h2⟩
        rw [vmiterAt_level] at h1
        exact hp ⟨h1, h2⟩
    rw [hloop'] at hloop
    cases hloop
    refine hend [] rfl (.refl htree) hinv rfl fun _ => ?_
    by_contra hne
    push Not at hne
    exact hp ⟨Nat.pos_of_ne_zero hne.1, hne.2⟩

/-- The assertions that have passed. -/
theorem tryMap_asserts (hres : (vmiterAt s.mem r (v * 4096)).tryMap L s pa perm = .ok (k, s'))
    (hp : perm &&& PTE_P ≠ 0) :
    pa &&& PTE_PAMASK = pa ∧ pwu perm &&& (stop s.mem r v).perm = pwu perm := by
  have hq0 : ¬ (pa = NEG_ONE ∧ perm = 0) := by
    rintro ⟨-, rfl⟩
    exact hp (Nat.zero_and _)
  obtain ⟨⟨k', it', s''⟩, hit, -⟩ := bind_eq_ok.1 hres
  rw [Vmiter.tryMapIt] at hit
  simp only [hq0, if_false] at hit
  obtain ⟨_, hasserts, -⟩ := bind_eq_ok.1 hit
  unfold Vmiter.tryMapAsserts at hasserts
  obtain ⟨-, -, hasserts⟩ := bind_eq_ok.1 hasserts
  obtain ⟨_, h2, h3⟩ := bind_eq_ok.1 hasserts
  have hpa := assert_eq_ok.1 h2
  have hgrant := assert_eq_ok.1 h3
  rw [if_pos hp] at hpa
  rw [vmiterAt_perm] at hgrant
  exact ⟨hpa.2, hgrant⟩

/-! ## One translation changes -/

/-- What the call `try_map(pa, perm)` at the page `v` has done if it has returned `k`. -/
structure MapsOnly (r v pa perm : ℕ) (s : State) (k : ℤ) (s' : State) : Prop where
  result : k = 0 ∨ k = -1
  here : k = 0 → perm &&& PTE_P ≠ 0 → perm < PAGESIZE → pa % PAGESIZE = 0 ∧
    ∃ q, translate s'.mem r v = some (pa / PAGESIZE, q) ∧ pwu q = pwu perm
  others : k = 0 → ∀ w, Canonical w → w ≠ v → translate s'.mem r w = translate s.mem r w
  failed : k = -1 → ∀ w, translate s'.mem r w = translate s.mem r w
  tree : (tables s'.mem 3 r).Nodup
  /-- the pages that the call has allocated -/
  reachable : ∀ p, s'.pages p ≠ s.pages p → p ∈ tables s'.mem 3 r

/-- The iterator has just been positioned at the address `va`, by the constructor or by `find`. -/
def Positioned (m : Mem) (r va : ℕ) (it : Vmiter) : Prop :=
  Vmiter.create m (r * 4096) va = .ok it ∨
    ∃ it₀, Valid m r it₀ ∧ it₀.find m va = .ok it

theorem Positioned.eq {m : Mem} {va : ℕ} (h : Positioned m r va it)
    (hva : vaIsCanonical va = true) :
    it = vmiterAt m r va := by
  have hcreate : Vmiter.create m (r * 4096) va = .ok it := by
    rcases h with h | ⟨it₀, hvalid, h⟩
    · exact h
    · rw [← hvalid.realFind]
      exact h
  rw [create_canonical hva] at hcreate
  split_ifs at hcreate
  cases hcreate
  rfl

theorem pwu_and_left (a b : ℕ) : pwu (a &&& b) = pwu a &&& b := by
  rw [pwu, pwu, Nat.and_assoc, Nat.and_assoc, Nat.and_comm b]

theorem pwu_and (a b : ℕ) : pwu (a &&& b) = pwu a &&& pwu b := by
  have hidem : pwu (pwu a) = pwu a := by
    rw [pwu, pwu, Nat.and_assoc, Nat.and_self]
  calc pwu (a &&& b) = pwu a &&& b := pwu_and_left a b
    _ = pwu (pwu a) &&& b := by rw [hidem]
    _ = pwu (b &&& pwu a) := by rw [← pwu_and_left, Nat.and_comm]
    _ = pwu a &&& pwu b := by rw [pwu_and_left, Nat.and_comm]

/-- The translation of a page whose entry has been stored. -/
theorem translate_put (htree : (tables t.mem 3 r).Nodup) (hl : (stop t.mem r v).level = 0)
    (hpa : pa &&& PTE_PAMASK = pa) (hperm : perm < 4096) (hp : perm % 2 = 1) :
    translate (t.put r v (pa ||| perm)).mem r v =
      some (pa / 4096, perm &&& (stop t.mem r v).perm) := by
  have hn : pa = pageOf pa * 4096 := by
    rw [← and_pamask]
    exact hpa.symm
  have hlt : pageOf pa < 2 ^ 40 := by
    rw [pageOf_eq]
    exact Nat.mod_lt _ (by norm_num)
  have hstop : (stop t.mem r v).perm < 4096 := lt_of_le_of_lt walk_perm_le (by decide)
  have hentry : pa ||| perm = pageOf pa * 4096 + perm := by
    rw [← page_or_perm hperm, ← hn]
  have hdiv : pa / 4096 = pageOf pa := by omega
  change translate (t.mem.set (stop t.mem r v).page (stop t.mem r v).idx (pa ||| perm)) r v = _
  rw [translate, stop_set htree hl, hentry, set_self, if_pos (by omega), frame, if_pos hl,
    pageOf_entry hlt hperm, entry_and_perm hperm hstop, hdiv]

/-- **`try_map` changes one translation.** -/
theorem tryMap_mapsOnly (htree : (tables s.mem 3 r).Nodup) (hfree : FreeOutside L s r)
    (hv : Canonical v) (hit : Positioned s.mem r (v * 4096) it)
    (hres : it.tryMap L s pa perm = .ok (k, s')) : MapsOnly r v pa perm s k s' := by
  have hva : vaIsCanonical (v * 4096) = true := by
    have hlt : v < 2 ^ 52 := by
      simp only [Canonical] at hv
      omega
    rw [canonical_iff (by omega), Nat.mul_div_cancel v (by decide)]
    exact hv
  rw [hit.eq hva] at hres
  have hasserts := fun hp => tryMap_asserts hres hp
  obtain ⟨⟨k', it', s''⟩, hres', hret⟩ := bind_eq_ok.1 hres
  cases hret
  obtain ⟨t, new, hg, -, hpwu, -, hcases⟩ :=
    tryMapIt_spec (I := fun _ => True) (fun _ _ _ _ _ _ => trivial) trivial htree hfree hres'
  have hreach : ∀ p, t.pages p ≠ s.pages p → p ∈ tables t.mem 3 r := by
    intro p hp
    rw [hg.pages] at hp
    split_ifs at hp with hnew
    · exact hg.mem_tables.2 (Or.inr hnew)
    · exact absurd rfl hp
  rcases hcases with ⟨rfl, rfl⟩ | ⟨rfl, hl, rfl⟩ | ⟨rfl, rfl, rfl⟩
  · exact ⟨Or.inr rfl, fun h => absurd h (by decide), fun h => absurd h (by decide),
      fun _ w => hg.translate w, hg.tree, hreach⟩
  · refine ⟨Or.inl rfl, fun _ hp hlt => ?_, fun _ w hw hne => ?_, fun h => absurd h (by decide), ?_,
      fun p hp => ?_⟩
    · obtain ⟨hpa, hgrant⟩ := hasserts hp
      have hodd : perm % 2 = 1 := by
        rw [and_one] at hp
        omega
      have haddr : mapAddr pa perm = pa := if_neg fun h => by omega
      have hmod := and_pamask pa
      rw [hpa] at hmod
      refine ⟨by rw [PAGESIZE]; omega, perm &&& (stop t.mem r v).perm, ?_, ?_⟩
      · rw [haddr]
        exact translate_put hg.tree hl hpa hlt hodd
      · -- the new links grant what the old ones granted
        rw [pwu_and, hpwu, ← pwu_and, pwu_and_left]
        exact hgrant
    · exact (translate_set_other hg.tree hl hv hw hne).trans (hg.translate w)
    · change (tables (t.mem.set _ _ _) 3 r).Nodup
      rw [tables_set hg.tree hl]
      exact hg.tree
    · change p ∈ tables (t.mem.set _ _ _) 3 r
      rw [tables_set hg.tree hl]
      exact hreach p hp
  · exact ⟨Or.inl rfl, fun _ hp => absurd (Nat.zero_and _) hp, fun _ w _ _ => hg.translate w,
      fun h => absurd h (by decide), hg.tree, hreach⟩

/-- A process with an empty page table. -/
def emptyTable : State := stateOf [(1, 1)] (fun _ _ => 0) fun p => if p = 1 then 1 else 0

theorem emptyTable_tables : tables emptyTable.mem 3 1 = [1] := by decide +kernel

theorem emptyTable_freeOutside : FreeOutside smallKernel emptyTable 1 := by
  intro p _ h0 hp
  rw [emptyTable_tables, List.mem_singleton] at hp
  subst hp
  exact absurd h0 (by decide)

theorem emptyTable_positioned : Positioned emptyTable.mem 1 (256 * 4096)
    (vmiterAt emptyTable.mem 1 (256 * 4096)) := by
  refine Or.inl ?_
  rw [create_canonical (by decide), if_neg (by decide)]

/-- A page is mapped for which three tables are missing. -/
theorem tryMap_mapsOnly_empty : (tables emptyTable.mem 3 1).Nodup ∧
    FreeOutside smallKernel emptyTable 1 ∧
    Positioned emptyTable.mem 1 (256 * 4096) (vmiterAt emptyTable.mem 1 (256 * 4096)) ∧
    ∃ s', (vmiterAt emptyTable.mem 1 (256 * 4096)).tryMap smallKernel emptyTable (8 * 4096) 7 =
      .ok (0, s') ∧
      MapsOnly 1 256 (8 * 4096) 7 emptyTable 0 s' := by
  have htree : (tables emptyTable.mem 3 1).Nodup := by
    rw [emptyTable_tables]
    decide
  have hret : returns ((vmiterAt emptyTable.mem 1 (256 * 4096)).tryMap smallKernel emptyTable (8 * 4096) 7) 0
      (fun _ => true) = true := by
    decide +kernel
  obtain ⟨s', hres, -⟩ := exists_of_returns hret
  exact ⟨htree, emptyTable_freeOutside, emptyTable_positioned, s', hres, tryMap_mapsOnly htree
    emptyTable_freeOutside (canonical_of_lt (by decide)) emptyTable_positioned hres⟩

/-- Permissions that contain a bit of the address: the page at `0x8000` is mapped, and the page at
    `0x9000` is what is accessed. -/
theorem tryMap_perm_in_address : (tables emptyTable.mem 3 1).Nodup ∧
    FreeOutside smallKernel emptyTable 1 ∧
    Positioned emptyTable.mem 1 (256 * 4096) (vmiterAt emptyTable.mem 1 (256 * 4096)) ∧
    ∃ s', (vmiterAt emptyTable.mem 1 (256 * 4096)).tryMap smallKernel emptyTable 0x8000 0x1007 =
        .ok (0, s') ∧
      translate s'.mem 1 256 = some (0x9000 / PAGESIZE, 7) := by
  have hret : returns ((vmiterAt emptyTable.mem 1 (256 * 4096)).tryMap smallKernel emptyTable 0x8000 0x1007) 0
      (fun s => translate s.mem 1 256 == some (9, 7)) = true := by
    decide +kernel
  obtain ⟨s', hres, htr⟩ := exists_of_returns hret
  refine ⟨?_, emptyTable_freeOutside, emptyTable_positioned, s', hres, beq_iff_eq.1 htr⟩
  rw [emptyTable_tables]
  decide

end CProj.WeensyOS
