/-
  What `boot_readseg` does to the memory.

  Stores succeed at addresses that are mapped and not the loader's own (`Free`).  From there, one
  lemma for each loop: a sector is copied (`bootReadsect_ok`), a run of sectors is copied
  (`readLoop_ok`), a range is cleared (`clearLoop_ok`), and a segment is loaded: sector by sector,
  beyond its end, before the rest of it is cleared (`bootReadseg_ok`).
-/
import CProj.BootDisk.Loader

namespace CProj.BootDisk

open CProj.Libc (Memory memset memset_apply)

variable {own : ℕ → Bool} {disk : List UInt8} {m m' : Memory} {a b n : ℕ}

/-- Nothing stands in the way of a store to an address in `[a, b)`. -/
def Free (own : ℕ → Bool) (a b : ℕ) : Prop := ∀ x, a ≤ x → x < b → x < MAPPED ∧ own x = false

theorem Free.mono {a' b' : ℕ} (h : Free own a b) (ha : a ≤ a') (hb : b' ≤ b) : Free own a' b' :=
  fun x hx hx' => h x (ha.trans hx) (lt_of_lt_of_le hx' hb)

theorem Free.le (h : Free own a b) (hab : a < b) : b ≤ 2 ^ 30 := by
  have hlt : b - 1 < 2 ^ 30 := (h (b - 1) (by omega) (by omega)).1
  omega

theorem poke_ok (h : Free own a b) (hab : a < b) (x : UInt8) :
    poke own m a x = .ok (Function.update m a x) := by
  obtain ⟨hlt, hown⟩ := h a le_rfl hab
  rw [poke, if_neg (Nat.not_le.2 hlt), hown]
  rfl

theorem insl_ok (bs : List UInt8) (h : Free own a (a + bs.length)) :
    ∃ m', insl own m a bs = .ok m' ∧
    ∀ x, m' x = if a ≤ x ∧ x < a + bs.length then bs.getD (x - a) 0 else m x := by
  induction bs generalizing m a with
  | nil => exact ⟨m, rfl, fun x => (if_neg (by simp)).symm⟩
  | cons b bs ih =>
    rw [List.length_cons] at h
    obtain ⟨m', hm', hx⟩ := ih (m := Function.update m a b) (h.mono (Nat.le_succ a) (by omega))
    refine ⟨m', ?_, fun x => ?_⟩
    · rw [insl, poke_ok h (by omega), ok_bind, hm']
    · rw [hx, List.length_cons]
      rcases Nat.lt_trichotomy x a with hlt | rfl | hgt
      · rw [if_neg (by omega), if_neg (by omega), Function.update_of_ne hlt.ne]
      · rw [if_neg (by omega), if_pos (by omega), Function.update_self, Nat.sub_self]
        rfl
      · have hsub : x - a = x - (a + 1) + 1 := by omega
        by_cases hin : x < a + 1 + bs.length
        · rw [if_pos (by omega), if_pos (by omega), hsub, List.getD_cons_succ]
        · rw [if_neg (by omega), if_neg (by omega), Function.update_of_ne hgt.ne']

/-- The four address registers name every sector of 28 bits on the first drive. -/
theorem ataSector_eq (h : n < 2 ^ 28) :
    (n / 2 ^ 24 ||| 0xE0) % 256 / 16 % 2 = 0 ∧
      ataSector (n % 256) (n / 2 ^ 8 % 256) (n / 2 ^ 16 % 256) ((n / 2 ^ 24 ||| 0xE0) % 256) =
        n := by
  have hor : ∀ x < 16, x ||| 0xE0 = 0xE0 + x := by decide
  rw [hor _ (by omega), ataSector]
  omega

/-- **Reading a sector.** -/
theorem bootReadsect_ok (disk : List UInt8) (m : Memory) {sect : ℕ} (hsect : sect < 2 ^ 28)
    (hdisk : 512 * (sect + 1) ≤ disk.length) (h : Free own a (a + 512)) :
    ∃ m', bootReadsect own disk m a sect = .ok m' ∧
      ∀ x, m' x = if a ≤ x ∧ x < a + 512 then disk.getD (512 * sect + (x - a)) 0 else m x := by
  obtain ⟨hdrive, hsector⟩ := ataSector_eq hsect
  have hlen : (slice disk (512 * sect) 512).length = 512 := by
    rw [length_slice]
    omega
  obtain ⟨m', hm', hx⟩ := insl_ok (m := m) (slice disk (512 * sect) 512) (by rwa [hlen])
  refine ⟨m', ?_, fun x => ?_⟩
  · rw [bootReadsect]
    simp only [hsector, hdrive]
    rw [if_neg (by omega), hm']
  · rw [hx, hlen]
    by_cases hin : a ≤ x ∧ x < a + 512
    · rw [if_pos hin, if_pos hin, List.getD_eq_getElem?_getD, getElem?_slice, if_pos (by omega),
        ← List.getD_eq_getElem?_getD]
    · rw [if_neg hin, if_neg hin]

/-- **Reading sectors**: `n` of them, up to the first boundary at or after `b`. -/
theorem readLoop_ok (disk : List UInt8) (m : Memory) (n : ℕ) {f s : ℕ} (hf : n < f)
    (hend : b ≤ a + 512 * n) (hstart : n = 0 ∨ a + 512 * (n - 1) < b) (hs : s + n ≤ 2 ^ 28)
    (hdisk : 512 * (s + n) ≤ disk.length) (h : Free own a (a + 512 * n)) :
    ∃ m', readLoop own disk f m a b s = .ok m' ∧ ∀ x, m' x =
      if a ≤ x ∧ x < a + 512 * n then disk.getD (512 * s + (x - a)) 0 else m x := by
  induction n generalizing m a s f with
  | zero =>
    obtain ⟨f, rfl⟩ : ∃ g, f = g + 1 := ⟨f - 1, by omega⟩
    refine ⟨m, ?_, fun x => (if_neg (by omega)).symm⟩
    rw [readLoop, if_neg (by omega)]
  | succ n ih =>
    obtain ⟨f, rfl⟩ : ∃ g, f = g + 1 := ⟨f - 1, by omega⟩
    rw [Nat.mul_succ, ← Nat.add_assoc] at h hend
    have hmapped := h.le (by omega)
    obtain ⟨m₁, hm₁, hx₁⟩ := bootReadsect_ok disk m (show s < 2 ^ 28 by omega) (by omega)
      (h.mono le_rfl (by omega))
    obtain ⟨m', hm', hx⟩ := ih m₁ (a := a + 512) (s := s + 1) (f := f) (by omega) (by omega)
      (by omega) (by omega) (by omega) (h.mono (by omega) (by omega))
    refine ⟨m', ?_, fun x => ?_⟩
    · rw [readLoop, if_pos (by omega), hm₁, ok_bind, Nat.mod_eq_of_lt (by omega),
        Nat.mod_eq_of_lt (by omega), hm']
    · have hmul : a + 512 * (n + 1) = a + 512 * n + 512 := by rw [Nat.mul_succ, Nat.add_assoc]
      rw [hx, hx₁, hmul]
      by_cases hlow : a ≤ x ∧ x < a + 512
      · rw [if_neg (by omega), if_pos hlow, if_pos (by omega)]
      · by_cases hhigh : a + 512 ≤ x ∧ x < a + 512 + 512 * n
        · have hsub : 512 * (s + 1) + (x - (a + 512)) = 512 * s + (x - a) := by omega
          rw [if_pos hhigh, if_pos (by omega), hsub]
        · rw [if_neg hhigh, if_neg hlow, if_neg (by omega)]

/-- **Clearing bytes.** -/
theorem clearLoop_ok (m : Memory) (n : ℕ) {f : ℕ} (hf : n < f) (hn : b - a = n)
    (h : Free own a b) : clearLoop own f m a b = .ok (memset m a 0 n) := by
  induction n generalizing m a f with
  | zero =>
    obtain ⟨f, rfl⟩ : ∃ g, f = g + 1 := ⟨f - 1, by omega⟩
    rw [clearLoop, if_neg (by omega)]
    rfl
  | succ n ih =>
    obtain ⟨f, rfl⟩ : ∃ g, f = g + 1 := ⟨f - 1, by omega⟩
    have hlt : a < b := by omega
    have hmapped := h.le hlt
    rw [clearLoop, if_pos hlt, poke_ok h hlt, ok_bind, Nat.mod_eq_of_lt (by omega),
      ih _ (by omega) (by omega) (h.mono (Nat.le_succ a) le_rfl)]
    rfl

/-- Rounding down to a sector boundary. -/
theorem and_sectorMask (ha : a < 2 ^ 64) : a &&& (2 ^ 64 - 512) = a / 512 * 512 := by
  have hmask : 2 ^ 64 - 512 = (2 ^ 55 - 1) <<< 9 := by decide
  have hdiv : a / 512 * 512 = (a >>> 9) <<< 9 := by
    rw [Nat.shiftLeft_eq, Nat.shiftRight_eq_div_pow]
  rw [hmask, hdiv]
  refine Nat.eq_of_testBit_eq fun i => ?_
  rw [Nat.testBit_and, Nat.testBit_shiftLeft, Nat.testBit_shiftLeft, Nat.testBit_two_pow_sub_one,
    Nat.testBit_shiftRight]
  by_cases hi : i ≥ 9
  · have hadd : 9 + (i - 9) = i := by omega
    rw [hadd]
    by_cases hlow : i - 9 < 55
    · simp [hi, hlow]
    · have htop : a.testBit i = false := Nat.testBit_lt_two_pow
        (lt_of_lt_of_le ha (Nat.pow_le_pow_right (by decide) (by omega)))
      simp [htop]
  · simp [hi]

/-- The addresses that the loading of a segment may touch, from one sector boundary to another. -/
def InRange (va memsz x : ℕ) : Prop := va / 512 * 512 ≤ x ∧ x < (va + memsz + 511) / 512 * 512

/-- **Loading a segment.** -/
theorem bootReadseg_ok {va s filesz memsz : ℕ} (hva : va < 2 ^ 64) (hle : filesz ≤ memsz)
    (hfree : ∀ x, InRange va memsz x → x < MAPPED ∧ own x = false)
    (hs : s + (va % 512 + filesz + 511) / 512 ≤ 2 ^ 28)
    (hdisk : 512 * (s + (va % 512 + filesz + 511) / 512) ≤ disk.length) :
    ∃ m', bootReadseg own disk m va s filesz memsz = .ok m' ∧
      (∀ x, ¬ InRange va memsz x → m' x = m x) ∧
      (∀ k < filesz, m' (va + k) = disk.getD (512 * s + (va % 512 + k)) 0) ∧
      ∀ k, filesz ≤ k → k < memsz → m' (va + k) = 0 := by
  -- the sectors that are read, and the sectors of the range
  obtain ⟨n, hn⟩ : ∃ n, n = (va % 512 + filesz + 511) / 512 := ⟨_, rfl⟩
  obtain ⟨base, hbase⟩ : ∃ base, base = va / 512 * 512 := ⟨_, rfl⟩
  obtain ⟨stop, hstop⟩ : ∃ stop, stop = (va + memsz + 511) / 512 * 512 := ⟨_, rfl⟩
  simp only [InRange] at hfree ⊢
  rw [← hbase, ← hstop] at hfree ⊢
  rw [← hn] at hs hdisk
  have hfree' : Free own base stop := fun x h1 h2 => hfree x ⟨h1, h2⟩
  have hread : base + 512 * n ≤ stop := by omega
  have hva' : va = base + va % 512 := by omega
  have hbytes : va + memsz ≤ stop := by omega
  have hsectors : va + filesz ≤ base + 512 * n := by omega
  have hfirst : n = 0 ∨ base + 512 * (n - 1) < va + filesz := by omega
  -- a range that is not empty lies in the memory that is mapped
  have hend : base < stop → stop ≤ 2 ^ 30 := fun hlt => hfree'.le hlt
  have hsmall : memsz ≤ 2 ^ 30 ∧ va + memsz < 2 ^ 64 := by
    by_cases hlt : base < stop
    · have := hend hlt
      omega
    · omega
  clear hn hstop hend hfree
  have hM : MAPPED + 1 = 2 ^ 30 + 1 := rfl
  obtain ⟨m₁, hm₁, hx₁⟩ := readLoop_ok disk m (a := base) (b := va + filesz) n (f := MAPPED + 1)
    (by rw [hM]; omega) hsectors hfirst hs hdisk (hfree'.mono le_rfl hread)
  have hm' := clearLoop_ok m₁ (a := va + filesz) (b := va + memsz) (memsz - filesz)
    (f := MAPPED + 1) (by rw [hM]; omega) (by omega) (hfree'.mono (by omega) hbytes)
  refine ⟨memset m₁ (va + filesz) 0 (memsz - filesz), ?_, fun x hx => ?_, fun k hk => ?_,
    fun k hk hk' => ?_⟩
  · rw [bootReadseg, and_sectorMask hva, ← hbase, Nat.add_comm memsz va, Nat.mod_eq_of_lt hsmall.2,
      Nat.mod_eq_of_lt (by omega), hm₁, ok_bind, hm']
  · rw [memset_apply, if_neg (by omega), hx₁, if_neg (by omega)]
  · have hsub : va + k - base = va % 512 + k := by omega
    rw [memset_apply, if_neg (by omega), hx₁, if_pos (by omega), hsub]
  · rw [memset_apply, if_pos (by omega)]

/-! ## Beyond the memory that is mapped -/

theorem bootReadsect_unmapped {sect : ℕ} (hsect : sect < 2 ^ 28)
    (hdisk : 512 * (sect + 1) ≤ disk.length) (ha : MAPPED ≤ a) :
    bootReadsect own disk m a sect = .error (.unmapped a) := by
  obtain ⟨hdrive, hsector⟩ := ataSector_eq hsect
  have hlen : (slice disk (512 * sect) 512).length = 512 := by
    rw [length_slice]
    omega
  rw [bootReadsect]
  simp only [hsector, hdrive]
  rw [if_neg (by omega)]
  cases hbytes : slice disk (512 * sect) 512 with
  | nil =>
    rw [hbytes] at hlen
    cases hlen
  | cons b bs =>
    rw [insl, poke, if_pos ha]
    rfl

/-- A segment that starts beyond the first 1 GiB is not loaded. -/
theorem bootReadseg_unmapped {va s filesz memsz : ℕ} (hva : va + filesz < 2 ^ 64)
    (hpos : 0 < filesz)
    (hbase : MAPPED ≤ va / 512 * 512) (hs : s < 2 ^ 28) (hdisk : 512 * (s + 1) ≤ disk.length) :
    bootReadseg own disk m va s filesz memsz = .error (.unmapped (va / 512 * 512)) := by
  rw [bootReadseg, and_sectorMask (by omega), Nat.mod_eq_of_lt hva, readLoop, if_pos (by omega),
    bootReadsect_unmapped hs hdisk hbase, error_bind, error_bind]

end CProj.BootDisk
