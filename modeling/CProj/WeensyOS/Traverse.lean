/-
  `ptiter` visits the tables below a root, children first: the list `subtables`.

  A position of the iterator is a level and the number `ρ` of a region of that level, the
  `2 ^ (12 + 9 * l)` bytes that one entry covers.  `Scan` is the loop `for (ptiter it(pt);
  it.active(); it.next())` from one configuration of `ptiter::down` to another, with the tables
  visited in between and the number of iterations.
-/
import CProj.WeensyOS.Alloc

namespace CProj.WeensyOS

/-! ## Regions -/

/-- The size of a region of level `l`. -/
def regionSize (l : ℕ) : ℕ := 2 ^ (12 + l * 9)

theorem regionSize_pos (l : ℕ) : 0 < regionSize l := Nat.two_pow_pos _

theorem regionSize_succ (l : ℕ) : regionSize (l + 1) = regionSize l * 512 := by
  rw [regionSize, regionSize, Nat.add_mul, ← Nat.add_assoc, Nat.pow_add]

theorem region_succ (va l : ℕ) : va / regionSize (l + 1) = va / regionSize l / 512 := by
  rw [regionSize_succ, Nat.div_div_eq_div_mul]

theorem pageindex_region (va l : ℕ) : pageindex va l = va / regionSize l % 512 := by
  rw [pageindex, show (0x1FF : ℕ) = 2 ^ 9 - 1 by norm_num, Nat.and_two_pow_sub_one_eq_mod,
    Nat.shiftRight_eq_div_pow]
  rfl

/-- The start of the next region. -/
theorem or_mask_succ (va l : ℕ) :
    (va ||| pageoffmask l) + 1 = (va / regionSize l + 1) * regionSize l := by
  have hpos := regionSize_pos l
  have h : va ||| pageoffmask l = va / regionSize l * regionSize l + (regionSize l - 1) := by
    rw [pageoffmask_eq, regionSize]
    refine Nat.eq_of_testBit_eq fun i => ?_
    have hlt : 2 ^ (12 + l * 9) - 1 < 2 ^ (12 + l * 9) := Nat.sub_lt (Nat.two_pow_pos _) one_pos
    rw [Nat.mul_comm (va / _), Nat.two_pow_add_eq_or_of_lt hlt, Nat.testBit_or, Nat.testBit_or,
      Nat.testBit_two_pow_sub_one, Nat.mul_comm (2 ^ _), Nat.testBit_mul_two_pow,
      Nat.testBit_div_two_pow]
    by_cases hi : i < 12 + l * 9
    · simp [hi]
    · have hle : 12 + l * 9 ≤ i := Nat.le_of_not_lt hi
      simp [hi, hle]
  rw [h, Nat.add_mul]
  omega

/-- The test for the last entry of a table. -/
theorem clearOffset_last (va l : ℕ) :
    clearOffset ((va ||| pageoffmask l) + 1 ^^^ va) (l + 1) ≠ 0 ↔
      va / regionSize l % 512 = 511 := by
  have hpos := regionSize_pos l
  have hnext : (va / regionSize l + 1) * regionSize l / regionSize (l + 1) =
      (va / regionSize l + 1) / 512 := by
    rw [region_succ, Nat.mul_div_cancel _ hpos]
  have hiff : ∀ x y : ℕ, clearOffset (x ^^^ y) (l + 1) = 0 ↔
      x / regionSize (l + 1) = y / regionSize (l + 1) := by
    intro x y
    refine ⟨clearOffset_xor_eq_zero, fun h => ?_⟩
    have h0 : (x ^^^ y) / regionSize (l + 1) = 0 := by
      rw [regionSize, Nat.xor_div_two_pow]
      exact Nat.xor_eq_zero_iff.2 h
    have hlt : (x ^^^ y) < regionSize (l + 1) :=
      (Nat.div_eq_zero_iff.1 h0).resolve_left (regionSize_pos _).ne'
    rw [clearOffset, and_pageoffmask]
    change (x ^^^ y) - (x ^^^ y) % regionSize (l + 1) = 0
    rw [Nat.mod_eq_of_lt hlt, Nat.sub_self]
  rw [Ne, hiff, or_mask_succ, hnext, region_succ]
  omega

/-! ## Configurations -/

/-- The iterator inside the loop of `ptiter::down`, with its local variables. -/
structure Cfg where
  it : Ptiter
  stopLevel : ℕ
  skip : Bool

variable {m : Mem} {r : ℕ}

def Cfg.loop (m : Mem) (fuel : ℕ) (c : Cfg) : Except Fault Ptiter :=
  c.it.downLoop m fuel c.stopLevel c.skip

/-- The loop over a page table goes from one configuration to another in `k` iterations of
    `ptiter::down` and visits the tables `ns` on the way. -/
inductive Scan (m : Mem) : ℕ → Cfg → List ℕ → Cfg → Prop
  | refl {c : Cfg} : Scan m 0 c [] c
  | silent {k : ℕ} {c d e : Cfg} {ns : List ℕ} (h : ∀ fuel, c.loop m (fuel + 1) = d.loop m fuel) :
    Scan m k d ns e → Scan m (k + 1) c ns e
  | visit {k : ℕ} {c e : Cfg} {it : Ptiter} {n : ℕ} {ns : List ℕ}
    (h : ∀ fuel, c.loop m (fuel + 1) = .ok it) (hactive : it.active = true) (hpa : it.pa m = n * 4096)
    (haddr : it.addr ≠ CONSOLE_ADDR) : Scan m k ⟨it, 1, true⟩ ns e → Scan m (k + 1) c (n :: ns) e

theorem Scan.trans {k k' : ℕ} {c d e : Cfg} {as bs : List ℕ} (h1 : Scan m k c as d)
    (h2 : Scan m k' d bs e) : Scan m (k + k') c (as ++ bs) e := by
  induction h1 with
  | refl => rwa [Nat.zero_add]
  | silent h _ ih =>
    rw [Nat.add_right_comm]
    exact .silent h (ih h2)
  | visit h hactive hpa haddr _ ih =>
    rw [Nat.add_right_comm]
    exact .visit h hactive hpa haddr (ih h2)

/-- The iterator at the region `va / regionSize l` of the table `t` of level `l`. -/
def ptAt (r l t va : ℕ) : Ptiter := ⟨r * 4096, t, va / regionSize l % 512, l, va⟩

section
variable {l t va stop : ℕ} {skip : Bool}

theorem step_down (hlink : IsLink (m t (va / regionSize (l + 1) % 512))) (hne : l + 1 ≠ stop) :
    ∀ fuel, Cfg.loop m (fuel + 1) ⟨ptAt r (l + 1) t va, stop, false⟩ =
      Cfg.loop m fuel ⟨ptAt r l (pageOf (m t (va / regionSize (l + 1) % 512))) va, stop, false⟩ := by
  intro fuel
  have hcond : IsLink (m (ptAt r (l + 1) t va).page (ptAt r (l + 1) t va).idx) ∧ ¬ false = true :=
    ⟨hlink, by decide⟩
  rw [Cfg.loop, Ptiter.downLoop, if_pos hcond, if_neg (by exact hne)]
  simp only [Cfg.loop, ptAt, Nat.add_sub_cancel, pageindex_region]

theorem step_stop (hlink : IsLink (m t (va / regionSize l % 512))) :
    ∀ fuel, Cfg.loop m (fuel + 1) ⟨ptAt r l t va, l, false⟩ = .ok (ptAt r l t va) := by
  intro fuel
  have hcond : IsLink (m (ptAt r l t va).page (ptAt r l t va).idx) ∧ ¬ false = true :=
    ⟨hlink, by decide⟩
  have hl : (ptAt r l t va).level = l := rfl
  rw [Cfg.loop, Ptiter.downLoop, if_pos hcond]
  exact if_pos hl

/-- The loop is done with an entry that is no link, or that it shall skip. -/
theorem not_link_or_skip (h : ¬ IsLink (m t (va / regionSize l % 512)) ∨ skip = true) :
    ¬ (IsLink (m (ptAt r l t va).page (ptAt r l t va).idx) ∧ ¬ skip = true) := by
  rintro ⟨h1, h2⟩
  exact h.elim (fun h => h h1) fun h => h2 h

theorem step_next (h : ¬ IsLink (m t (va / regionSize l % 512)) ∨ skip = true)
    (hlast : va / regionSize l % 512 ≠ 511) :
    ∀ fuel, Cfg.loop m (fuel + 1) ⟨ptAt r l t va, stop, skip⟩ =
      Cfg.loop m fuel ⟨ptAt r l t ((va / regionSize l + 1) * regionSize l), stop, false⟩ := by
  intro fuel
  have hlast' : ¬ clearOffset (((ptAt r l t va).va ||| pageoffmask (ptAt r l t va).level) + 1 ^^^
      (ptAt r l t va).va) ((ptAt r l t va).level + 1) ≠ 0 := by
    rw [clearOffset_last]; exact hlast
  rw [Cfg.loop, Ptiter.downLoop, if_neg (not_link_or_skip h)]
  simp only [if_neg hlast']
  simp only [Cfg.loop, ptAt, or_mask_succ, Nat.mul_div_cancel _ (regionSize_pos l)]
  have hidx : va / regionSize l % 512 + 1 = (va / regionSize l + 1) % 512 := by omega
  rw [hidx]

theorem step_up (h : ¬ IsLink (m t (va / regionSize l % 512)) ∨ skip = true)
    (hlast : va / regionSize l % 512 = 511) (hl : l ≠ 3) :
    ∀ fuel, Cfg.loop m (fuel + 1) ⟨ptAt r l t va, stop, skip⟩ =
      Cfg.loop m fuel ⟨ptAt r 3 r va, l + 1, false⟩ := by
  intro fuel
  have hlast' : clearOffset (((ptAt r l t va).va ||| pageoffmask (ptAt r l t va).level) + 1 ^^^
      (ptAt r l t va).va) ((ptAt r l t va).level + 1) ≠ 0 := by
    rw [clearOffset_last]; exact hlast
  have hl' : ¬ (ptAt r l t va).level = 3 := hl
  rw [Cfg.loop, Ptiter.downLoop, if_neg (not_link_or_skip h)]
  simp only [if_pos hlast', if_neg hl']
  simp only [Cfg.loop, ptAt, page_div, pageindex_region]

theorem step_end (h : ¬ IsLink (m t (va / regionSize 3 % 512)) ∨ skip = true)
    (hlast : va / regionSize 3 % 512 = 511) :
    ∀ fuel, Cfg.loop m (fuel + 1) ⟨ptAt r 3 t va, stop, skip⟩ =
      .ok { ptAt r 3 t va with va := VA_NONCANONMAX + 1 } := by
  intro fuel
  have hlast' : clearOffset (((ptAt r 3 t va).va ||| pageoffmask (ptAt r 3 t va).level) + 1 ^^^
      (ptAt r 3 t va).va) ((ptAt r 3 t va).level + 1) ≠ 0 := by
    rw [clearOffset_last]; exact hlast
  have hl' : (ptAt r 3 t va).level = 3 := rfl
  rw [Cfg.loop, Ptiter.downLoop, if_neg (not_link_or_skip h)]
  simp only [if_pos hlast', if_pos hl']

end

/-! ## The traversal -/

/-- The links from the root lead to the table `t` of level `l` for the region `ρ` of that level. -/
inductive Reaches (m : Mem) (r : ℕ) : ℕ → ℕ → ℕ → Prop
  | root {ρ : ℕ} : ρ < 512 → Reaches m r 3 r ρ
  | down {l t ρ : ℕ} : Reaches m r (l + 1) t (ρ / 512) → IsLink (m t (ρ / 512 % 512)) →
    Reaches m r l (pageOf (m t (ρ / 512 % 512))) ρ

section
variable {l t ρ va : ℕ}

theorem Reaches.le (h : Reaches m r l t ρ) : l ≤ 3 := by
  induction h with
  | root _ => exact le_rfl
  | down _ _ ih => omega

theorem Reaches.next (h : Reaches m r l t ρ) (hlast : ρ % 512 ≠ 511) : Reaches m r l t (ρ + 1) := by
  have hdiv : (ρ + 1) / 512 = ρ / 512 := by omega
  cases h with
  | root hlt => exact .root (by omega)
  | down hparent hlink =>
    rw [← hdiv] at hparent hlink ⊢
    exact .down hparent hlink

/-- The addresses below a root end at `VA_NONCANONMAX`. -/
theorem Reaches.active (h : Reaches m r l t ρ) : ∀ {va}, va / regionSize l = ρ →
    (ptAt r l t va).active = true := by
  induction h with
  | @root ρ hlt =>
    intro va hva
    have hsize : regionSize 3 = 549755813888 := rfl
    rw [hsize] at hva
    rw [Ptiter.active, decide_eq_true_iff]
    change va ≤ VA_NONCANONMAX
    rw [VA_NONCANONMAX]
    omega
  | down _ _ ih =>
    intro va hva
    exact ih (by rw [region_succ, hva])

/-- The address of a visited table is no address of a page. -/
theorem addr_ne_console : (ptAt r (l + 1) t va).addr ≠ CONSOLE_ADDR := by
  have hsize : regionSize (l + 1) = 2097152 * 512 ^ l := by
    rw [regionSize, Nat.add_mul, ← Nat.add_assoc, Nat.pow_add, Nat.add_comm 12, Nat.pow_add,
      Nat.mul_comm l 9, Nat.pow_mul]
    norm_num
    ring
  have haddr : (ptAt r (l + 1) t va).addr = va / regionSize (l + 1) * regionSize (l + 1) := by
    simp only [Ptiter.addr, ptAt, clearOffset, and_pageoffmask]
    change va - va % regionSize (l + 1) = _
    rw [Nat.mul_comm]
    have := Nat.div_add_mod va (regionSize (l + 1))
    omega
  rw [haddr, hsize, ← Nat.mul_assoc, Nat.mul_right_comm, CONSOLE_ADDR]
  omega

theorem ptAt_pa : (ptAt r l t va).pa m = pageOf (m t (va / regionSize l % 512)) * 4096 :=
  and_pamask _

/-- Down again from the root. -/
theorem Reaches.redescend (h : Reaches m r l t ρ) : ∀ {va stop}, va / regionSize l = ρ → stop ≤ l →
    Scan m (3 - l) ⟨ptAt r 3 r va, stop, false⟩ [] ⟨ptAt r l t va, stop, false⟩ := by
  induction h with
  | root _ => intro va stop _ _; exact .refl
  | @down l t ρ hparent hlink ih =>
    intro va stop hva hstop
    have hle := hparent.le
    have hregion : va / regionSize (l + 1) = ρ / 512 := by rw [region_succ, hva]
    have hsteps := @ih va stop hregion (by omega)
    have hlink' : IsLink (m t (va / regionSize (l + 1) % 512)) := by rwa [hregion]
    have hlast : Scan m (0 + 1) ⟨ptAt r (l + 1) t va, stop, false⟩ [] ⟨ptAt r l _ va, stop, false⟩ :=
      .silent (step_down hlink' (by omega)) .refl
    rw [hregion] at hlast
    have hscan := hsteps.trans hlast
    rwa [show 3 - (l + 1) + (0 + 1) = 3 - l by omega] at hscan

/-- After the last entry of a table comes the table itself. -/
theorem Reaches.visit_up (h : Reaches m r (l + 1) t (ρ / 512))
    (hlink : IsLink (m t (ρ / 512 % 512)))
    {va : ℕ} (hva : va / regionSize l = ρ) :
    ∃ k ≤ 4, Scan m k ⟨ptAt r 3 r va, l + 1, false⟩ [pageOf (m t (ρ / 512 % 512))]
      ⟨ptAt r (l + 1) t va, 1, true⟩ := by
  have hregion : va / regionSize (l + 1) = ρ / 512 := by rw [region_succ, hva]
  have hlink' : IsLink (m t (va / regionSize (l + 1) % 512)) := by rwa [hregion]
  have hpa : (ptAt r (l + 1) t va).pa m = pageOf (m t (ρ / 512 % 512)) * 4096 := by
    rw [ptAt_pa, hregion]
  have hvisit := Scan.visit (step_stop (r := r) hlink') (h.active hregion) hpa addr_ne_console .refl
  exact ⟨_, by omega, (h.redescend hregion le_rfl).trans hvisit⟩

end

/-- A bound on the number of iterations for one entry of a table of level `l`. -/
def entryCost : ℕ → ℕ
  | 0 => 0
  | l + 1 => 512 * (entryCost l + 1) + 6

/-- The scan of an entry ends with the entry done. -/
def ScansEntry (m : Mem) (r l t ρ : ℕ) : Prop :=
  ∃ k va skip, k ≤ entryCost (l + 1) ∧ va / regionSize (l + 1) = ρ ∧
    (¬ IsLink (m t (ρ % 512)) ∨ skip = true) ∧
    Scan m k ⟨ptAt r (l + 1) t (ρ * regionSize (l + 1)), 1, false⟩ (below m l t (ρ % 512))
      ⟨ptAt r (l + 1) t va, 1, skip⟩

/-- The scan of a table, from a region on, ends with its last entry done. -/
def ScansTable (m : Mem) (r l t ρ : ℕ) : Prop :=
  ∃ k va skip, k ≤ (512 - ρ % 512) * (entryCost (l + 1) + 1) ∧
    va / regionSize (l + 1) = ρ + (511 - ρ % 512) ∧
    (¬ IsLink (m t 511) ∨ skip = true) ∧
    Scan m k ⟨ptAt r (l + 1) t (ρ * regionSize (l + 1)), 1, false⟩
      ((List.range' (ρ % 512) (512 - ρ % 512)).flatMap (below m l t))
      ⟨ptAt r (l + 1) t va, 1, skip⟩

theorem scansTable_of_entries {l t : ℕ} (hentry : ∀ ρ, Reaches m r (l + 1) t ρ →
    ScansEntry m r l t ρ) :
    ∀ (n ρ : ℕ), 511 - ρ % 512 = n → Reaches m r (l + 1) t ρ → ScansTable m r l t ρ
  | 0, ρ, hn, hr => by
    obtain ⟨k, va, skip, hk, hva, hdone, hscan⟩ := hentry ρ hr
    have h511 : ρ % 512 = 511 := by omega
    refine ⟨k, va, skip, ?_, ?_, by rw [← h511]; exact hdone, ?_⟩
    · rw [h511]; omega
    · rw [h511]; exact hva
    · have hlist : (List.range' (ρ % 512) (512 - ρ % 512)).flatMap (below m l t) =
          below m l t (ρ % 512) := by
        rw [h511, List.range'_one, List.flatMap_singleton]
      rw [hlist]
      exact hscan
  | n + 1, ρ, hn, hr => by
    obtain ⟨k, va, skip, hk, hva, hdone, hscan⟩ := hentry ρ hr
    have hlast : ρ % 512 ≠ 511 := by omega
    have hmod : (ρ + 1) % 512 = ρ % 512 + 1 := by omega
    obtain ⟨k', va', skip', hk', hva', hdone', hscan'⟩ :=
      scansTable_of_entries hentry n (ρ + 1) (by omega) (hr.next hlast)
    have hnext : Scan m (0 + 1) ⟨ptAt r (l + 1) t va, 1, skip⟩ []
        ⟨ptAt r (l + 1) t ((va / regionSize (l + 1) + 1) * regionSize (l + 1)), 1, false⟩ :=
      .silent (step_next (by rw [hva]; exact hdone) (by rw [hva]; exact hlast)) .refl
    rw [hva] at hnext
    refine ⟨k + (0 + 1) + k', va', skip', ?_, by omega, hdone', ?_⟩
    · have : (512 - ρ % 512) * (entryCost (l + 1) + 1) =
          (512 - (ρ + 1) % 512) * (entryCost (l + 1) + 1) + (entryCost (l + 1) + 1) := by
        rw [hmod, ← Nat.succ_mul]; congr 1; omega
      omega
    · have hlist : (List.range' (ρ % 512) (512 - ρ % 512)).flatMap (below m l t) =
          below m l t (ρ % 512) ++
            (List.range' ((ρ + 1) % 512) (512 - (ρ + 1) % 512)).flatMap (below m l t) := by
        rw [hmod, show 512 - ρ % 512 = 512 - (ρ % 512 + 1) + 1 by omega, List.range'_succ,
          List.flatMap_cons]
      rw [hlist]
      have := (hscan.trans hnext).trans hscan'
      rwa [List.append_nil] at this

/-- **Scanning an entry** visits the tables below it. -/
theorem scansEntry : ∀ (l t ρ : ℕ), Reaches m r (l + 1) t ρ → ScansEntry m r l t ρ
  | l, t, ρ, hr => by
    have hva : ρ * regionSize (l + 1) / regionSize (l + 1) = ρ :=
      Nat.mul_div_cancel _ (regionSize_pos _)
    by_cases hlink : IsLink (m t (ρ % 512))
    swap
    · refine ⟨0, ρ * regionSize (l + 1), false, Nat.zero_le _, hva, Or.inl hlink, ?_⟩
      rw [below, if_neg hlink]
      exact .refl
    have hlink' : IsLink (m t (ρ * regionSize (l + 1) / regionSize (l + 1) % 512)) := by rwa [hva]
    rw [ScansEntry, below, if_pos hlink]
    cases l with
    | zero =>
      -- a table of level 0 has no tables below it
      have hpa : (ptAt r 1 t (ρ * regionSize 1)).pa m = pageOf (m t (ρ % 512)) * 4096 := by
        rw [ptAt_pa, hva]
      exact ⟨_, _, true, by decide, hva, Or.inr rfl,
        .visit (step_stop hlink') (hr.active hva) hpa addr_ne_console .refl⟩
    | succ l =>
      set c := pageOf (m t (ρ % 512)) with hc
      have hfirst : ρ * regionSize (l + 2) = ρ * 512 * regionSize (l + 1) := by
        rw [regionSize_succ, Nat.mul_comm (regionSize _), Nat.mul_assoc]
      have hparent : Reaches m r (l + 2) t (ρ * 512 / 512) := by
        rwa [Nat.mul_div_cancel _ (by decide)]
      have hchild : Reaches m r (l + 1) c (ρ * 512) := by
        have hlinkd : IsLink (m t (ρ * 512 / 512 % 512)) := by
          rwa [Nat.mul_div_cancel _ (by decide)]
        have := Reaches.down hparent hlinkd
        rwa [Nat.mul_div_cancel _ (by decide)] at this
      obtain ⟨k, va, skip, hk, hregion, hdone, hscan⟩ :=
        scansTable_of_entries (scansEntry l c) _ (ρ * 512) rfl hchild
      have hmod : ρ * 512 % 512 = 0 := Nat.mul_mod_left _ _
      rw [hmod] at hk hregion hscan
      simp only [Nat.sub_zero, ← List.range_eq_range'] at hk hregion hscan
      -- down into the table, over its entries, and up again to the link
      have hdown : Scan m (0 + 1) ⟨ptAt r (l + 2) t (ρ * regionSize (l + 2)), 1, false⟩ []
          ⟨ptAt r (l + 1) c (ρ * 512 * regionSize (l + 1)), 1, false⟩ := by
        rw [← hfirst]
        refine .silent (d := ⟨ptAt r (l + 1) c (ρ * regionSize (l + 2)), 1, false⟩) ?_ .refl
        have hstep := step_down (r := r) hlink' (show l + 1 + 1 ≠ 1 by omega)
        rw [hva] at hstep
        exact hstep
      have hup : Scan m (0 + 1) ⟨ptAt r (l + 1) c va, 1, skip⟩ [] ⟨ptAt r 3 r va, l + 2, false⟩ := by
        have hlast : va / regionSize (l + 1) % 512 = 511 := by
          rw [hregion, Nat.mul_comm, Nat.mul_add_mod]
        have hle := hr.le
        exact .silent (step_up (by rw [hlast]; exact hdone) hlast (by omega)) .refl
      have hdiv : (ρ * 512 + 511) / 512 = ρ := by omega
      obtain ⟨k', hk', hvisit⟩ := Reaches.visit_up (ρ := ρ * 512 + 511) (by rwa [hdiv])
        (by rwa [hdiv]) hregion
      rw [hdiv] at hvisit
      refine ⟨0 + 1 + k + (0 + 1) + k', va, true, ?_, ?_, Or.inr rfl, ?_⟩
      · have : entryCost (l + 1 + 1) = 512 * (entryCost (l + 1) + 1) + 6 := rfl
        omega
      · rw [region_succ, hregion, hdiv]
      · have hall := ((hdown.trans hscan).trans hup).trans hvisit
        rw [List.append_nil, List.nil_append] at hall
        exact hall

/-- **The loop over a page table** visits the tables below the root, and ends. -/
theorem scan_root (m : Mem) (r : ℕ) : ∃ k va skip, k ≤ 512 * (entryCost 3 + 1) ∧
    va / regionSize 3 % 512 = 511 ∧ (¬ IsLink (m r 511) ∨ skip = true) ∧
    Scan m k ⟨ptAt r 3 r 0, 1, false⟩ (subtables m 3 r) ⟨ptAt r 3 r va, 1, skip⟩ := by
  have hroot : Reaches m r 3 r 0 := .root (by decide)
  obtain ⟨k, va, skip, hk, hva, hdone, hscan⟩ :=
    scansTable_of_entries (scansEntry 2 r) _ 0 rfl hroot
  simp only [Nat.zero_mod, Nat.sub_zero, Nat.zero_mul, ← List.range_eq_range',
    Nat.zero_add] at hk hva hscan
  exact ⟨k, va, skip, hk, by rw [hva], hdone, hscan⟩

end CProj.WeensyOS
