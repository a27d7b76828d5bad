/-
  Walking over the low addresses with `vmiter::next` (k-vmiter.cc).

  From a page that is absent together with the whole region of an entry, `next` moves to the end of
  the region; from any other page to the next one (`nextVa`).  What lies in between is absent
  (`skipped_absent`), so that the loop visits every page that is present (`lowPages_visits`).
-/
import CProj.WeensyOS.Ranges

namespace CProj.WeensyOS

/-- The loop `for (...; it.low(); it.next())`: the addresses that it visits. -/
def lowLoop (m : Mem) : ℕ → Vmiter → Except Fault (List ℕ)
  | 0, _ => .error .running
  | fuel + 1, it =>
    if it.va ≤ VA_LOWMAX then do
      let vas ← lowLoop m fuel (← it.next m)
      return it.va :: vas
    else .ok []

/-- `for (vmiter it(pt, 0); it.low(); it.next())` -/
def lowPages (m : Mem) (pt : ℕ) : Except Fault (List ℕ) := do
  lowLoop m Vmiter.lowFuel (← Vmiter.create m pt 0)

/-- The page at `va` is present. -/
def Present (m : Mem) (r va : ℕ) : Prop := translate m r (va / 4096) ≠ none

/-- The addresses of a run: page-aligned, increasing, with every page that is present, and each of
    them once. -/
structure VisitsPages (m : Mem) (r : ℕ) (vas : List ℕ) : Prop where
  aligned : ∀ va ∈ vas, va % 4096 = 0 ∧ va < VA_LOWEND
  increasing : vas.Pairwise (· < ·)
  complete : ∀ va < VA_LOWEND, va % 4096 = 0 → Present m r va → vas.count va = 1

variable {m : Mem} {r va a : ℕ} {it : Vmiter}

/-! ## A step -/

/-- Where `next` moves to. -/
def nextVa (m : Mem) (r va : ℕ) : ℕ :=
  if translate m r (va / 4096) = none then regionEnd m r va else (va / 4096 + 1) * 4096

theorem permissions_eq_zero : (vmiterAt m r va).permissions m = 0 ↔
    translate m r (va / 4096) = none := by
  rw [vmiterAt_permissions]
  cases h : translate m r (va / 4096) with
  | none => simp
  | some x =>
    have hodd := (translate_perm (n := x.1) (q := x.2) h).1
    simp only [reduceCtorEq, iff_false]
    omega

theorem regionEnd_level_zero (h : (stop m r (va / 4096)).level = 0) :
    regionEnd m r va = (va / 4096 + 1) * 4096 := by
  rw [regionEnd, h]
  rfl

theorem nextVa_le (hva : va < VA_LOWEND) : nextVa m r va ≤ VA_LOWEND := by
  unfold nextVa
  split_ifs
  · exact regionEnd_le m r hva
  · rw [VA_LOWEND] at hva ⊢
    omega

theorem next_aligned (m : Mem) (r va : ℕ) :
    nextVa m r va % 4096 = 0 ∧ va / 4096 + 1 ≤ nextVa m r va / 4096 := by
  unfold nextVa
  split_ifs
  · exact (regionEnd_page m r va).symm
  · omega

theorem present_iff : Present m r va ↔
    m (stop m r (va / 4096)).page (stop m r (va / 4096)).idx % 2 = 1 := by
  simp only [Present, translate]
  split_ifs with h <;> simp [h]

/-- The pages that `next` passes over are absent. -/
theorem skipped_absent (hle : va ≤ a) (hne : va / 4096 < a / 4096) (hlt : a < nextVa m r va) :
    ¬ Present m r a := by
  unfold nextVa at hlt
  split_ifs at hlt with h
  · have hva : ¬ Present m r va := fun hp => hp h
    rwa [present_iff, stop_region hle hlt, ← present_iff]
  · omega

theorem next_eq (hva : va < VA_LOWEND) :
    (vmiterAt m r va).next m = (vmiterAt m r va).realFind m (nextVa m r va) := by
  have hlevel : (va ||| pageoffmask (if (vmiterAt m r va).level > 0 ∧
      (vmiterAt m r va).permissions m = 0 then (vmiterAt m r va).level else 0)) + 1 =
      nextVa m r va := by
    rw [or_mask_succ, nextVa]
    by_cases h : translate m r (va / 4096) = none
    · rw [if_pos h]
      by_cases hl : (vmiterAt m r va).level > 0
      · rw [if_pos ⟨hl, permissions_eq_zero.2 h⟩]
        rfl
      · rw [if_neg fun h => hl h.1, regionEnd_level_zero (Nat.eq_zero_of_not_pos hl)]
        rfl
    · rw [if_neg h, if_neg fun h' => h (permissions_eq_zero.1 h'.2)]
      rfl
  have hlt : nextVa m r va < 2 ^ 64 := (nextVa_le hva).trans_lt (by decide)
  rw [Vmiter.next]
  simp only [vaAdd]
  change Vmiter.realFind m _ (((va ||| _) + 1) % 2 ^ 64) = _
  rw [hlevel, Nat.mod_eq_of_lt hlt]

/-! ## The loop -/

/-- The loop from an aligned address on. -/
theorem lowLoop_spec (hb : Below4G m r) : ∀ (fuel : ℕ) {it : Vmiter}, Valid m r it →
    (it.va < VA_LOWEND → it = vmiterAt m r it.va) → it.va ≤ VA_LOWEND → it.va % 4096 = 0 →
    VA_LOWEND / 4096 < it.va / 4096 + fuel →
    ∃ vas, lowLoop m fuel it = .ok vas ∧ (∀ va ∈ vas, it.va ≤ va ∧ va % 4096 = 0 ∧ va < VA_LOWEND) ∧
      vas.Pairwise (· < ·) ∧
      ∀ va, it.va ≤ va → va < VA_LOWEND → va % 4096 = 0 → Present m r va → va ∈ vas
  | 0, it, _, _, hle, _, hfuel => by
    have := Nat.div_le_div_right (c := 4096) hle
    omega
  | fuel + 1, it, hv, hat, hle, halign, hfuel => by
    have hend : VA_LOWEND = VA_LOWMAX + 1 := rfl
    rw [lowLoop]
    by_cases hlow : it.va ≤ VA_LOWMAX
    swap
    · rw [if_neg hlow]
      refine ⟨[], rfl, fun va hva => absurd hva List.not_mem_nil, List.Pairwise.nil, ?_⟩
      intro va hge hlt
      omega
    have hlt : it.va < VA_LOWEND := by omega
    obtain ⟨haligned, hstep⟩ := next_aligned m r it.va
    obtain ⟨it₁, hmove, hv₁, hva₁, hat₁⟩ := hb.create (nextVa_le (m := m) (r := r) hlt)
    have hnext : it.next m = .ok it₁ := by
      rw [hat hlt, next_eq hlt, ← hat hlt, hv.realFind, hmove]
    obtain ⟨vas, hvas, hin, hpair, hall⟩ := lowLoop_spec hb fuel hv₁ (by rwa [hva₁])
      (by rw [hva₁]; exact nextVa_le hlt) (by rwa [hva₁]) (by rw [hva₁]; omega)
    have hgt : it.va < nextVa m r it.va := by omega
    rw [hva₁] at hin hall
    refine ⟨it.va :: vas, ?_, ?_, ?_, ?_⟩
    · rw [if_pos hlow, hnext, ok_bind, hvas]
      rfl
    · rintro va (- | ⟨-, hmem⟩)
      · exact ⟨le_rfl, halign, hlt⟩
      · obtain ⟨h1, h2⟩ := hin va hmem
        exact ⟨hgt.le.trans h1, h2⟩
    · exact List.pairwise_cons.2 ⟨fun va hmem => hgt.trans_le (hin va hmem).1, hpair⟩
    · intro va hge hva hal hp
      rcases Nat.eq_or_lt_of_le hge with rfl | hlt'
      · exact List.mem_cons_self
      · refine List.mem_cons_of_mem _ (hall va ?_ hva hal hp)
        by_contra hskip
        exact skipped_absent hge (by omega) (Nat.lt_of_not_le hskip) hp

/-- **`next` never skips a page that is present.** -/
theorem lowPages_visits (hb : Below4G m r) :
    ∃ vas, lowPages m (r * PAGESIZE) = .ok vas ∧ VisitsPages m r vas := by
  obtain ⟨it, hcreate, hv, hva, hat⟩ := hb.create (Nat.zero_le VA_LOWEND)
  obtain ⟨vas, hvas, hin, hpair, hall⟩ := lowLoop_spec hb Vmiter.lowFuel hv
    (fun h => by rw [hva] at h ⊢; exact hat h) (by rw [hva]; exact Nat.zero_le _) (by rw [hva])
    (by rw [hva]; decide)
  refine ⟨vas, ?_, fun va hmem => (hin va hmem).2, hpair, fun va hlt hal hp => ?_⟩
  · change (Vmiter.create m (r * 4096) 0 >>= _) = _
    rw [hcreate, ok_bind, hvas]
  · refine List.count_eq_one_of_mem (hpair.imp fun h => h.ne) ?_
    exact hall va (by rw [hva]; exact Nat.zero_le _) hlt hal hp

theorem lowPages_onePage : Below4G onePageMem 1 ∧
    ∃ vas, lowPages onePageMem (1 * PAGESIZE) = .ok vas ∧ VisitsPages onePageMem 1 vas := by
  have hs : Shaped onePageMem 1 := shaped_of_check (by decide +kernel) (by decide +kernel)
  exact ⟨hs.bounded, lowPages_visits hs.bounded⟩

/-- The walk stops at the page at 4 GiB: `down` takes it for uninitialised memory. -/
theorem lowPages_highPage : (tables highPageMem 3 1).Nodup ∧ Present highPageMem 1 0 ∧
    lowPages highPageMem (1 * PAGESIZE) = .error .panic := by
  refine ⟨by decide +kernel, present_iff.2 (by decide +kernel), by decide +kernel⟩

end CProj.WeensyOS
