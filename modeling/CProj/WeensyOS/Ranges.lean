/-
  Range permission checks: `vmiter::perm(last_va, p)` and `vmiter::low_perm` (k-vmiter.hh).

  The loop of `perm` moves from the region of one entry to that of the next.  All addresses in the
  region of the entry at which a walk ends have the same permissions (`grants_region`), so that
  what it has passed is granted as far as it has come (`permLoop_spec`).
-/
import CProj.WeensyOS.Checks
import CProj.WeensyOS.Fork
import CProj.WeensyOS.Positions
import CProj.WeensyOS.Traverse

namespace CProj.WeensyOS

def VA_LOWEND : ℕ := 0x0000800000000000

namespace Vmiter
variable (m : Mem)

/-- The loop of `perm(last_va, p)`. -/
def permLoop (lastVa p : ℕ) : ℕ → Vmiter → Except Fault (Bool × Vmiter)
  | 0, _ => .error .running
  | fuel + 1, it =>
    if it.va < lastVa then
      if it.permits m p then do permLoop lastVa p fuel (← it.nextRange m) else .ok (false, it)
    else .ok (true, it)

/-- More iterations than a loop over the low addresses makes. -/
def lowFuel : ℕ := 2 ^ 40

/-- `perm(last_va, p)`, and the iterator that it leaves. -/
def permRange (it : Vmiter) (lastVa p : ℕ) : Except Fault (Bool × Vmiter) :=
  permLoop m lastVa p lowFuel it

/-- `low_perm(first, last, p)`. -/
def lowPerm (it : Vmiter) (first last p : ℕ) : Except Fault (Bool × Vmiter) :=
  if first ≤ last ∧ last ≤ VA_LOWEND then
    if first = last then .ok (true, it) else do (← it.find m first).permRange m last p
  else .ok (false, it)

/-- `low_perm(first, size, p)`. -/
def lowPermSize (it : Vmiter) (first size p : ℕ) : Except Fault (Bool × Vmiter) :=
  if first ≤ VA_LOWEND ∧ size ≤ VA_LOWEND - first then
    if size = 0 then .ok (true, it)
    else do (← it.find m first).permRange m (vaAdd first size) p
  else .ok (false, it)

end Vmiter

/-- The address `a` is mapped with all permissions in `p`, those of the entries of all levels. -/
def Grants (m : Mem) (r a p : ℕ) : Prop :=
  ∃ n q, translate m r (a / 4096) = some (n, q) ∧ q &&& p = p

variable {m : Mem} {r va a p : ℕ} {it : Vmiter}

/-! ## The region of an entry -/

/-- The end of the region of the entry at which the walk for `va` ends. -/
def regionEnd (m : Mem) (r va : ℕ) : ℕ :=
  (va / regionSize (stop m r (va / 4096)).level + 1) * regionSize (stop m r (va / 4096)).level

theorem regionSize_dvd (l : ℕ) : 4096 ∣ regionSize l := by
  rw [regionSize, pow_add]
  exact Dvd.intro _ rfl

theorem regionSize_le {l : ℕ} (hl : l ≤ 3) : regionSize l ∣ 2 ^ 39 :=
  Nat.pow_dvd_pow 2 (by omega)

theorem lt_regionEnd (m : Mem) (r va : ℕ) : va < regionEnd m r va := by
  have hpos := regionSize_pos (stop m r (va / 4096)).level
  have hmod := Nat.mod_lt va hpos
  have hdiv := Nat.div_add_mod' va (regionSize (stop m r (va / 4096)).level)
  rw [regionEnd, Nat.add_mul, Nat.one_mul]
  omega

/-- The end of a region is the start of a page. -/
theorem regionEnd_page (m : Mem) (r va : ℕ) :
    va / 4096 + 1 ≤ regionEnd m r va / 4096 ∧ regionEnd m r va % 4096 = 0 := by
  have hmod : regionEnd m r va % 4096 = 0 :=
    Nat.mod_eq_zero_of_dvd ((regionSize_dvd _).mul_left _)
  have hlt := lt_regionEnd m r va
  exact ⟨by omega, hmod⟩

/-- The regions of low addresses end at the end of the low addresses at the latest. -/
theorem regionEnd_le (m : Mem) (r : ℕ) (hva : va < VA_LOWEND) : regionEnd m r va ≤ VA_LOWEND := by
  obtain ⟨k, hk⟩ := regionSize_le (l := (stop m r (va / 4096)).level) walk_level_le
  have hend : VA_LOWEND = 256 * k * regionSize (stop m r (va / 4096)).level := by
    have h47 : VA_LOWEND = 256 * 2 ^ 39 := by rw [VA_LOWEND]; norm_num
    rw [h47, hk]
    ring
  have hpos := regionSize_pos (stop m r (va / 4096)).level
  rw [hend] at hva ⊢
  rw [regionEnd]
  exact Nat.mul_le_mul_right _ ((Nat.div_lt_iff_lt_mul hpos).2 hva)

theorem div_eq_of_region (hle : va ≤ a) (hlt : a < regionEnd m r va) :
    va / regionSize (stop m r (va / 4096)).level = a / regionSize (stop m r (va / 4096)).level := by
  have hpos := regionSize_pos (stop m r (va / 4096)).level
  refine le_antisymm (Nat.div_le_div_right hle) ?_
  exact Nat.le_of_lt_succ ((Nat.div_lt_iff_lt_mul hpos).2 hlt)

/-- The walks for the addresses of a region end at one entry. -/
theorem stop_region (hle : va ≤ a) (hlt : a < regionEnd m r va) :
    stop m r (a / 4096) = stop m r (va / 4096) := by
  have hdiv := div_eq_of_region hle hlt
  rcases Nat.eq_zero_or_pos (stop m r (va / 4096)).level with h0 | hpos
  · rw [h0] at hdiv
    have hpage : va / 4096 = a / 4096 := hdiv
    rw [hpage]
  · exact stop_eq_of_ix hpos fun k hk _ => ix_eq_of_div_eq hdiv hk

theorem grants_region (hle : va ≤ a) (hlt : a < regionEnd m r va) :
    Grants m r a p ↔ Grants m r va p := by
  unfold Grants translate
  rw [stop_region hle hlt]
  by_cases he : m (stop m r (va / 4096)).page (stop m r (va / 4096)).idx % 2 = 1
  · simp only [if_pos he, Option.some_inj, Prod.mk.injEq]
    constructor
    · rintro ⟨n, q, ⟨-, rfl⟩, hq⟩
      exact ⟨_, _, ⟨rfl, rfl⟩, hq⟩
    · rintro ⟨n, q, ⟨-, rfl⟩, hq⟩
      exact ⟨_, _, ⟨rfl, rfl⟩, hq⟩
  · simp only [if_neg he]

/-! ## Moving an iterator -/

theorem lastVa_eq (hva : va < VA_LOWEND) : (vmiterAt m r va).lastVa = regionEnd m r va := by
  have hlt : regionEnd m r va < 2 ^ 64 := (regionEnd_le m r hva).trans_lt (by decide)
  rw [Vmiter.lastVa, vaAdd]
  change ((va ||| pageoffmask (stop m r (va / 4096)).level) + 1) % 2 ^ 64 = _
  rw [or_mask_succ]
  exact Nat.mod_eq_of_lt hlt

/-- An iterator can be moved to every low address, and to their end. -/
theorem Below4G.create (hb : Below4G m r) (hva : va ≤ VA_LOWEND) :
    ∃ it, Vmiter.create m (r * 4096) va = .ok it ∧ Valid m r it ∧ it.va = va ∧
      (va < VA_LOWEND → it = vmiterAt m r va) := by
  have hlt : va < 2 ^ 64 := hva.trans_lt (by decide)
  rcases Nat.lt_or_eq_of_le hva with hlow | rfl
  · have hcan : vaIsCanonical va = true := by
      have hmax : VA_LOWEND = VA_LOWMAX + 1 := rfl
      rw [vaIsCanonical, Bool.or_eq_true, decide_eq_true_eq]
      exact Or.inl (by omega)
    have hentry : pageOf (m (stop m r (va / 4096)).page (stop m r (va / 4096)).idx) < 2 ^ 20 :=
      hb _ stop_page_mem _ walk_idx_lt
    refine ⟨vmiterAt m r va, ?_, valid_vmiterAt hcan hlt, rfl, fun _ => rfl⟩
    rw [create_canonical hcan, if_neg]
    exact Nat.not_le.2 hentry
  · have hcan : vaIsCanonical VA_LOWEND = false := by decide
    refine ⟨vmiterNowhere r VA_LOWEND, create_not_canonical hcan, ?_, rfl,
      fun h => absurd h (lt_irrefl _)⟩
    exact ⟨rfl, hlt, Or.inr ⟨hcan, rfl⟩⟩

/-- Moving an iterator succeeds, at low addresses and at their end. -/
theorem Valid.realFind_low (hb : Below4G m r) (h : Valid m r it) (hva : va ≤ VA_LOWEND) :
    ∃ it', it.realFind m va = .ok it' ∧ Valid m r it' ∧ it'.va = va ∧
      (va < VA_LOWEND → it' = vmiterAt m r va) := by
  rw [h.realFind]
  exact hb.create hva

/-! ## The checks -/

/-- The loop of `perm` decides whether the addresses from that of the iterator on are granted. -/
theorem permLoop_spec (hb : Below4G m r) (hp : p % 2 = 1) {last : ℕ} (hlast : last ≤ VA_LOWEND) :
    ∀ (fuel : ℕ) {it : Vmiter}, Valid m r it → (it.va < last → it = vmiterAt m r it.va) → 0 < fuel →
      (it.va < last → last / 4096 + 2 ≤ it.va / 4096 + fuel) →
      ∃ b it', it.permLoop m last p fuel = .ok (b, it') ∧ Valid m r it' ∧
        (b = true ↔ ∀ a, it.va ≤ a → a < last → Grants m r a p)
  | 0, it, _, _, h0, _ => absurd h0 (lt_irrefl 0)
  | fuel + 1, it, hv, hat, _, hfuel => by
    rw [Vmiter.permLoop]
    by_cases hlt : it.va < last
    swap
    · rw [if_neg hlt]
      exact ⟨true, it, rfl, hv, iff_of_true rfl fun a ha ha' => absurd (ha.trans_lt ha') hlt⟩
    have hfuel' := hfuel hlt
    have hlow : it.va < VA_LOWEND := hlt.trans_le hlast
    have hgrant : it.permits m p = true ↔ Grants m r it.va p := by
      rw [hat hlt]
      exact vmiterAt_permits hp
    rw [if_pos hlt]
    by_cases hpermits : it.permits m p = true
    swap
    · rw [if_neg hpermits]
      exact ⟨false, it, rfl, hv,
        iff_of_false Bool.false_ne_true fun h => hpermits (hgrant.2 (h _ le_rfl hlt))⟩
    have hnext : it.lastVa = regionEnd m r it.va := by
      rw [hat hlt]
      exact lastVa_eq hlow
    obtain ⟨it₁, hmove, hv₁, hva₁, hat₁⟩ := hv.realFind_low hb (regionEnd_le m r hlow)
    have hpage := (regionEnd_page m r it.va).1
    obtain ⟨b, it₂, hloop, hv₂, hall⟩ := permLoop_spec hb hp hlast fuel hv₁
      (fun h => by rw [hva₁] at h ⊢; exact hat₁ (h.trans_le hlast)) (by omega)
      (fun _ => by rw [hva₁]; omega)
    refine ⟨b, it₂, ?_, hv₂, hall.trans ⟨fun h a ha ha' => ?_, fun h a ha ha' => ?_⟩⟩
    · rw [if_pos hpermits, Vmiter.nextRange, hnext, hmove, ok_bind, hloop]
    · by_cases hin : a < regionEnd m r it.va
      · exact (grants_region ha hin).2 (hgrant.1 hpermits)
      · exact h a (by rw [hva₁]; omega) ha'
    · rw [hva₁] at ha
      exact h a ((lt_regionEnd m r it.va).le.trans ha) ha'

theorem permRange_spec (hb : Below4G m r) (hv : Valid m r it) (hp : p % 2 = 1) {first last : ℕ}
    (hlt : first < last) (hlast : last ≤ VA_LOWEND) : ∃ b it',
      (it.find m first >>= fun it => it.permRange m last p) = .ok (b, it') ∧
        (b = true ↔ ∀ a, first ≤ a → a < last → Grants m r a p) := by
  have hlow : first < VA_LOWEND := hlt.trans_le hlast
  obtain ⟨it₁, hmove, hv₁, rfl, hat₁⟩ := hv.realFind_low hb hlow.le
  obtain ⟨b, it₂, hloop, -, hall⟩ := permLoop_spec hb hp hlast Vmiter.lowFuel hv₁
    (fun _ => hat₁ hlow) (by decide) fun _ => by
      rw [VA_LOWEND] at hlast
      simp only [Vmiter.lowFuel]
      omega
  refine ⟨b, it₂, ?_, hall⟩
  rw [Vmiter.find, hmove, ok_bind]
  exact hloop

/-- **`low_perm`**, for a table with addresses below 4 GiB, accepts exactly the ranges of low addresses
    that do not wrap around and of which every address is mapped with all permissions in `p`. -/
theorem lowPerm_iff (m : Mem) (r : ℕ) (it : Vmiter) (hb : Below4G m r) (hv : Valid m r it)
    (first last size p : ℕ) (hp : p &&& PTE_P ≠ 0) :
    (∃ b it', it.lowPerm m first last p = .ok (b, it') ∧ (b = true ↔
      first ≤ last ∧ last ≤ VA_LOWEND ∧ ∀ a, first ≤ a → a < last → Grants m r a p)) ∧
    ∃ b it', it.lowPermSize m first size p = .ok (b, it') ∧ (b = true ↔
      first + size ≤ VA_LOWEND ∧ ∀ a, first ≤ a → a < first + size → Grants m r a p) := by
  have hodd : p % 2 = 1 := by
    rw [and_one] at hp
    omega
  constructor
  · unfold Vmiter.lowPerm
    by_cases hbounds : first ≤ last ∧ last ≤ VA_LOWEND
    swap
    · rw [if_neg hbounds]
      exact ⟨false, it, rfl, iff_of_false Bool.false_ne_true fun h => hbounds ⟨h.1, h.2.1⟩⟩
    rw [if_pos hbounds]
    by_cases hempty : first = last
    · rw [if_pos hempty]
      exact ⟨true, it, rfl, iff_of_true rfl ⟨hbounds.1, hbounds.2, fun a ha ha' => by omega⟩⟩
    · rw [if_neg hempty]
      obtain ⟨b, it', hloop, hall⟩ :=
        permRange_spec hb hv hodd (lt_of_le_of_ne hbounds.1 hempty) hbounds.2
      exact ⟨b, it', hloop, hall.trans ⟨fun h => ⟨hbounds.1, hbounds.2, h⟩, fun h => h.2.2⟩⟩
  · unfold Vmiter.lowPermSize
    by_cases hbounds : first ≤ VA_LOWEND ∧ size ≤ VA_LOWEND - first
    swap
    · rw [if_neg hbounds]
      exact ⟨false, it, rfl, iff_of_false Bool.false_ne_true fun h => hbounds (by omega)⟩
    have hfit : first + size ≤ VA_LOWEND := by omega
    rw [if_pos hbounds]
    by_cases hempty : size = 0
    · rw [if_pos hempty]
      exact ⟨true, it, rfl, iff_of_true rfl ⟨hfit, fun a ha ha' => by omega⟩⟩
    · have hadd : vaAdd first size = first + size :=
        Nat.mod_eq_of_lt (hfit.trans_lt (by decide))
      rw [if_neg hempty, hadd]
      obtain ⟨b, it', hloop, hall⟩ := permRange_spec hb hv hodd (by omega : first < first + size) hfit
      exact ⟨b, it', hloop, hall.trans ⟨fun h => ⟨hfit, h⟩, fun h => h.2⟩⟩

/-- A table that maps the page at `PROC_START_ADDR`. -/
def onePageMem : Mem := tableMem 1 fun v => if v = 256 then 6 * 4096 + 7 else 0

theorem lowPerm_iff_onePage :
    (∃ b it', (vmiterAt onePageMem 1 0).lowPerm onePageMem 0x100FF0 0x101000 7 = .ok (b, it') ∧
      (b = true ↔ 0x100FF0 ≤ 0x101000 ∧ 0x101000 ≤ VA_LOWEND ∧
        ∀ a, 0x100FF0 ≤ a → a < 0x101000 → Grants onePageMem 1 a 7)) ∧
    ∃ b it', (vmiterAt onePageMem 1 0).lowPermSize onePageMem 0x100FF0 0x20 7 = .ok (b, it') ∧
      (b = true ↔ 0x100FF0 + 0x20 ≤ VA_LOWEND ∧
        ∀ a, 0x100FF0 ≤ a → a < 0x100FF0 + 0x20 → Grants onePageMem 1 a 7) :=
  lowPerm_iff onePageMem 1 (vmiterAt onePageMem 1 0)
    (shaped_of_check (by decide +kernel) (by decide +kernel)).bounded
    (valid_vmiterAt (by decide) (by decide)) 0x100FF0 0x101000 0x20 7 (by decide)

/-- A table that maps page 0 to the physical page at 4 GiB. -/
def highPageMem : Mem := tableMem 1 fun v => if v = 0 then 2 ^ 20 * 4096 + 7 else 0

/-- The page at 4 GiB is granted, but the check does not return: `down` takes the entry for
    uninitialised memory. -/
theorem lowPerm_highPage : (tables highPageMem 3 1).Nodup ∧
    Valid highPageMem 1 (vmiterAt highPageMem 1 4096) ∧
    (∀ a, 0 ≤ a → a < 4096 → Grants highPageMem 1 a 7) ∧
    (vmiterAt highPageMem 1 4096).lowPerm highPageMem 0 4096 7 = .error .panic ∧
    (vmiterAt highPageMem 1 4096).lowPermSize highPageMem 0 4096 7 = .error .panic := by
  refine ⟨by decide +kernel, valid_vmiterAt (by decide) (by decide), fun a _ ha => ?_,
    by decide +kernel, by decide +kernel⟩
  rw [Grants, Nat.div_eq_of_lt ha]
  exact ⟨2 ^ 20, 7, by decide +kernel, rfl⟩

end CProj.WeensyOS
