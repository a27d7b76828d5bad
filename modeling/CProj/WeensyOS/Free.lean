/-
  `pfree` releases what a page table owns, once each: the user-accessible pages from
  `PROC_START_ADDR` on, the tables below the root, and the root.
-/
import CProj.WeensyOS.Traverse

namespace CProj.WeensyOS

variable {s : State} {r : ℕ}

/-! ## Releasing pages -/

/-- The state after each of the pages `ns` has lost one reference. -/
def State.release (s : State) (ns : List ℕ) : State :=
  { s with pages := fun p => s.pages p - UInt8.ofNat (ns.count p) }

/-- The counts cover a reference for each of the pages `ns`. -/
def Covers (s : State) (ns : List ℕ) : Prop := ∀ p, ns.count p ≤ (s.pages p).toNat

theorem Covers.left {as bs : List ℕ} (h : Covers s (as ++ bs)) : Covers s as := fun p => by
  have := h p
  rw [List.count_append] at this
  omega

theorem toNat_sub_ofNat {a : UInt8} {c : ℕ} (h : c ≤ a.toNat) :
    (a - UInt8.ofNat c).toNat = a.toNat - c := by
  have hlt := a.toNat_lt
  have hc : (UInt8.ofNat c).toNat = c := by
    rw [UInt8.toNat_ofNat']
    exact Nat.mod_eq_of_lt (by omega)
  rw [UInt8.toNat_sub_of_le _ _ (by rw [UInt8.le_iff_toNat_le, hc]; exact h), hc]

theorem Covers.toNat_release {ns : List ℕ} (h : Covers s ns) (p : ℕ) :
    ((s.release ns).pages p).toNat = (s.pages p).toNat - ns.count p := toNat_sub_ofNat (h p)

@[simp] theorem release_nil : s.release [] = s := by
  have : (fun p => s.pages p - UInt8.ofNat ([].count p)) = s.pages := by
    funext p
    rw [List.count_nil]
    exact UInt8.sub_zero _
  rw [State.release, this]

theorem kfree_release {n : ℕ} {ns : List ℕ} (hpos : 0 < n) (hlt : n < NPAGES)
    (h : Covers s (ns ++ [n])) :
    kfree (s.release ns) (n * 4096) = .ok (s.release (ns ++ [n])) := by
  have hcount := h n
  rw [List.count_append, List.count_singleton_self] at hcount
  have hne : (s.release ns).pages n ≠ 0 := by
    intro h0
    have := h.left.toNat_release n
    rw [h0] at this
    have hz : (0 : UInt8).toNat = 0 := rfl
    omega
  rw [kfree_eq hpos hlt hne]
  have hpages : Function.update (s.release ns).pages n ((s.release ns).pages n - 1) =
      (s.release (ns ++ [n])).pages := by
    funext p
    rw [Function.update_apply]
    refine UInt8.toNat_inj.1 ?_
    rw [h.toNat_release, List.count_append]
    split_ifs with hp
    · subst hp
      rw [List.count_singleton_self, UInt8.toNat_sub_of_le, h.left.toNat_release]
      · have h1 : (1 : UInt8).toNat = 1 := rfl
        omega
      · rw [UInt8.le_iff_toNat_le, h.left.toNat_release]
        have h1 : (1 : UInt8).toNat = 1 := rfl
        omega
    · rw [h.left.toNat_release, List.count_singleton]
      have : ¬ (n == p) = true := by simpa using Ne.symm hp
      rw [if_neg this, Nat.add_zero]
  rw [hpages]
  rfl

/-! ## What a page table owns -/

/-- The pages that are mapped user-accessible at the `n` virtual pages from `v` on. -/
def userPages (m : Mem) (r v n : ℕ) : List ℕ :=
  (List.range' v n).flatMap fun w => (userPage m r w).toList

/-- The pages that are mapped user-accessible in `[PROC_START_ADDR, MEMSIZE_VIRTUAL)`. -/
def procPages (m : Mem) (r : ℕ) : List ℕ :=
  userPages m r (PROC_START_ADDR / PAGESIZE) ((MEMSIZE_VIRTUAL - PROC_START_ADDR) / PAGESIZE)

/-- Everything the table with root `r` refers to, once for every reference. -/
def owned (m : Mem) (r : ℕ) : List ℕ := procPages m r ++ subtables m 3 r ++ [r]

theorem userPages_succ {m : Mem} {v n : ℕ} : userPages m r v (n + 1) =
    (userPage m r v).toList ++ userPages m r (v + 1) n := by
  rw [userPages, List.range'_succ, List.flatMap_cons]; rfl

theorem advance_eq {m : Mem} {v : ℕ} (hs : Shaped m r) (hv : v + 1 < 2 ^ 35) :
    (vmiterAt m r (v * 4096)).advance m PAGESIZE = .ok (vmiterAt m r ((v + 1) * 4096)) := by
  have hva : vaAdd (vmiterAt m r (v * 4096)).va PAGESIZE = (v + 1) * 4096 := by
    change (v * 4096 + 4096) % 2 ^ 64 = _
    omega
  rw [Vmiter.advance, Vmiter.find, hva]
  refine realFind_eq hs (canonical_of_lt ?_) (by omega)
  rw [Nat.mul_div_cancel _ (by decide)]
  exact hv

/-- A page that `kfree` can release, and that `pfree` does not pass over. -/
def Freeable (p : ℕ) : Prop := 0 < p ∧ p < NPAGES ∧ p * 4096 ≠ CONSOLE_ADDR

/-- **The loop over the pages.** -/
theorem pfreePages_spec (hs : Shaped s.mem r) : ∀ (n fuel v : ℕ) (ns : List ℕ), v + n = 768 →
    n < fuel → (∀ p ∈ userPages s.mem r v n, Freeable p) → Covers s (ns ++ userPages s.mem r v n) →
    pfreePages fuel (vmiterAt s.mem r (v * 4096)) (s.release ns) =
      .ok (s.release (ns ++ userPages s.mem r v n))
  | 0, fuel + 1, v, ns, hv, _, _, _ => by
    have hva : ¬ (vmiterAt s.mem r (v * 4096)).va < MEMSIZE_VIRTUAL := by
      change ¬ v * 4096 < 0x300000
      omega
    rw [pfreePages, if_neg hva]
    simp [userPages]
  | n + 1, fuel + 1, v, ns, hv, hfuel, hfree, hcov => by
    have hva : (vmiterAt s.mem r (v * 4096)).va < MEMSIZE_VIRTUAL := by
      change v * 4096 < 0x300000
      omega
    have hdiv : v * 4096 / 4096 = v := Nat.mul_div_cancel _ (by decide)
    rw [userPages_succ] at hfree hcov ⊢
    -- the rest of the loop, after the page under the iterator
    have hrest : ∀ as, userPage s.mem r v = as.head? → as.length ≤ 1 →
        (do
          let it ← (vmiterAt s.mem r (v * 4096)).advance (s.release (ns ++ as)).mem PAGESIZE
          pfreePages fuel it (s.release (ns ++ as))) =
        .ok (s.release (ns ++ ((userPage s.mem r v).toList ++ userPages s.mem r (v + 1) n))) := by
      intro as has hlen
      have hlist : (userPage s.mem r v).toList = as := by
        rw [has]
        match as, hlen with
        | [], _ => rfl
        | [a], _ => rfl
      rw [hlist, ← List.append_assoc] at hcov
      have ih := pfreePages_spec hs n fuel (v + 1) (ns ++ as) (by omega) (by omega)
        (fun p hp => hfree p (List.mem_append_right _ hp)) hcov
      change (vmiterAt s.mem r (v * 4096)).advance s.mem PAGESIZE >>= _ = _
      rw [advance_eq hs (by omega), ok_bind, ih, hlist, List.append_assoc]
    rw [pfreePages, if_pos hva]
    cases hp : userPage s.mem r v with
    | none =>
      have huser : ¬ (vmiterAt s.mem r (v * 4096)).user s.mem = true := by
        rw [vmiterAt_user, hdiv]
        rintro ⟨p, q, htr, hq⟩
        have := userPage_eq_some.2 ⟨q, htr, hq⟩
        rw [hp] at this
        cases this
      have hrest' := hrest [] hp (by simp)
      rw [List.append_nil, hp] at hrest'
      rw [if_neg fun h => huser h.1, ok_bind]
      exact hrest'
    | some p =>
      obtain ⟨q, htr, hq⟩ := userPage_eq_some.1 hp
      have huser : (vmiterAt s.mem r (v * 4096)).user s.mem = true := by
        rw [vmiterAt_user, hdiv]; exact ⟨p, q, htr, hq⟩
      have hpa : (vmiterAt s.mem r (v * 4096)).pa s.mem = p * 4096 := by
        rw [vmiterAt_pa (by rw [hdiv]; exact htr)]
        omega
      obtain ⟨hpos, hlt, hcon⟩ := hfree p (by rw [hp]; simp)
      have hcov' : Covers s (ns ++ [p]) := by
        rw [hp, ← List.append_assoc] at hcov
        exact hcov.left
      have hkfree : kfree (s.release ns) ((vmiterAt s.mem r (v * 4096)).pa s.mem) =
          .ok (s.release (ns ++ [p])) := by rw [hpa, kfree_release hpos hlt hcov']
      have hrest' := hrest [p] hp (by simp)
      rw [hp] at hrest'
      rw [if_pos ⟨huser, by
        change (vmiterAt s.mem r (v * 4096)).pa s.mem ≠ CONSOLE_ADDR
        rw [hpa]; exact hcon⟩]
      change kfree (s.release ns) ((vmiterAt s.mem r (v * 4096)).pa s.mem) >>= _ = _
      rw [hkfree, ok_bind]
      exact hrest'

/-! ## The loop over the tables -/

/-- The loop frees the tables of a scan and goes on from the configuration where it ends. -/
theorem Scan.pfreeTables {k : ℕ} {c d : Cfg} {ns : List ℕ} (h : Scan s.mem k c ns d) :
    ∀ (as : List ℕ) (fuel F : ℕ), k < fuel → fuel ≤ Ptiter.fuel → k < F →
      (∀ p ∈ ns, 0 < p ∧ p < NPAGES) → Covers s (as ++ ns) →
      ∃ fuel' F', 0 < fuel' ∧ 0 < F' ∧
        (c.loop s.mem fuel >>= fun it => pfreeTables F it (s.release as)) =
          d.loop s.mem fuel' >>= fun it => pfreeTables F' it (s.release (as ++ ns)) := by
  induction h with
  | refl =>
    intro as fuel F hfuel _ hF _ _
    exact ⟨fuel, F, hfuel, hF, by rw [List.append_nil]⟩
  | silent h _ ih =>
    intro as fuel F hfuel hle hF hns hcov
    obtain ⟨fuel, rfl⟩ : ∃ n, fuel = n + 1 := ⟨fuel - 1, by omega⟩
    rw [h]
    exact ih as fuel F (by omega) (by omega) (by omega) hns hcov
  | @visit k c e it n ns h hactive hpa haddr _ ih =>
    intro as fuel F hfuel hle hF hns hcov
    obtain ⟨fuel, rfl⟩ : ∃ n, fuel = n + 1 := ⟨fuel - 1, by omega⟩
    obtain ⟨F, rfl⟩ : ∃ n, F = n + 1 := ⟨F - 1, by omega⟩
    rw [List.append_cons] at hcov ⊢
    obtain ⟨hpos, hlt⟩ := hns n List.mem_cons_self
    have hkfree : kfree (s.release as) (it.pa s.mem) = .ok (s.release (as ++ [n])) := by
      rw [hpa, kfree_release hpos hlt hcov.left]
    obtain ⟨fuel', F', h1, h2, h3⟩ := ih (as ++ [n]) Ptiter.fuel F (by omega) le_rfl (by omega)
      (fun p hp => hns p (List.mem_cons_of_mem n hp)) hcov
    refine ⟨fuel', F', h1, h2, ?_⟩
    rw [h, ok_bind, WeensyOS.pfreeTables, if_pos hactive, if_pos haddr]
    change kfree (s.release as) (it.pa s.mem) >>= _ = _
    rw [hkfree, ok_bind]
    exact h3

theorem ptiter_create {m : Mem} : Ptiter.create m (r * 4096) 0 =
    Cfg.loop m Ptiter.fuel ⟨ptAt r 3 r 0, 1, false⟩ := by
  rw [Ptiter.create, Ptiter.down, Cfg.loop, page_div, pageindex_region]
  rfl

/-- **`pfree`** releases what the page table owns. -/
theorem pfree_spec (hs : Shaped s.mem r) (hpages : ∀ p ∈ procPages s.mem r, Freeable p)
    (htables : ∀ p ∈ tables s.mem 3 r, 0 < p ∧ p < NPAGES) (hcov : Covers s (owned s.mem r)) :
    pfree s (r * 4096) = .ok (s.release (owned s.mem r)) := by
  have hcreate : Vmiter.create s.mem (r * 4096) PROC_START_ADDR =
      .ok (vmiterAt s.mem r (256 * 4096)) :=
    create_eq hs (canonical_of_lt (by decide)) (by decide)
  have hpfree : pfreePages (MEMSIZE_VIRTUAL / PAGESIZE) (vmiterAt s.mem r (256 * 4096)) s =
      .ok (s.release (procPages s.mem r)) := by
    have := pfreePages_spec hs 512 (MEMSIZE_VIRTUAL / PAGESIZE) 256 [] rfl (by decide) hpages
      (by rw [List.nil_append]; exact hcov.left.left)
    rwa [release_nil, List.nil_append] at this
  obtain ⟨k, va, skip, hk, hlast, hdone, hscan⟩ := scan_root s.mem r
  obtain ⟨fuel, F, hfuel, hF, hloop⟩ := hscan.pfreeTables
    (procPages s.mem r) Ptiter.fuel Ptiter.fuel
    (lt_of_le_of_lt hk (by decide)) le_rfl (lt_of_le_of_lt hk (by decide))
    (fun p hp => htables p (List.mem_cons_of_mem r hp)) hcov.left
  obtain ⟨fuel, rfl⟩ : ∃ n, fuel = n + 1 := ⟨fuel - 1, by omega⟩
  obtain ⟨F, rfl⟩ : ∃ n, F = n + 1 := ⟨F - 1, by omega⟩
  have hend : Cfg.loop s.mem (fuel + 1) ⟨ptAt r 3 r va, 1, skip⟩ =
      .ok { ptAt r 3 r va with va := VA_NONCANONMAX + 1 } :=
    step_end (by rw [hlast]; exact hdone) hlast fuel
  have hinactive : ¬ Ptiter.active { ptAt r 3 r va with va := VA_NONCANONMAX + 1 } = true := by
    rw [Ptiter.active, decide_eq_true_iff]
    exact Nat.not_succ_le_self _
  rw [hend, ok_bind, pfreeTables, if_neg hinactive] at hloop
  obtain ⟨hpos, hlt⟩ := htables r List.mem_cons_self
  rw [pfree, hcreate, ok_bind, hpfree, ok_bind]
  change (Ptiter.create s.mem (r * 4096) 0 >>= fun it =>
    pfreeTables Ptiter.fuel it (s.release (procPages s.mem r)) >>= fun s => kfree s (r * 4096)) = _
  rw [ptiter_create, ← bind_assoc, hloop, ok_bind]
  exact kfree_release hpos hlt hcov

end CProj.WeensyOS
