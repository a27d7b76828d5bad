/-
  `io300_write` on a good handle, when every system call succeeds.

  The loop fills one window after the other.  Below the cached size it refills the next window
  with `io300_fetch`, which asserts that the head is not past `cacheEnd`; if the window just
  filled was short, the head is.  `WindowsFull` says that this does not happen, in terms of the
  handle before the call, and it is exact: `io300Write_spec`, `io300Write_error`.
-/
import CProj.FileIO.Calls

namespace CProj.FileIO.Student

open Io300File

variable {C : ℕ} {f : Io300File Os}

/-- No window that a write of `n` bytes leaves behind, below the cached size, is short: the
    present one is loaded to its end, and the later ones lie inside the file on disk. -/
def WindowsFull (C : ℕ) (f : Io300File Os) (n : ℕ) : Prop :=
  ∀ k, 1 ≤ k → f.cacheStart + k * C < f.head + n → ((f.cacheStart + k * C : ℕ) : ℤ) < f.fileSize →
    if k = 1 then f.cacheEnd = f.cacheStart + C else f.cacheStart + k * C ≤ f.os.data.length

/-- The windows of a sized handle are full. -/
theorem Sized.windowsFull (hs : Sized f) (h : Ok C f) (n : ℕ) : WindowsFull C f n := by
  intro k hk hn hF
  have h1 := hs.size_le
  have h2 : f.os.data.length ≤ f.contents.length := data_le_contents
  have h3 := h.head_le_end
  have h4 := h.end_le
  split_ifs with hk1
  · subst hk1
    by_contra hne
    rcases h.short (by omega) with h5 | h5 <;> omega
  · omega

/-- The handle at the head of the loop of `io300_write`. -/
structure Loop (C : ℕ) (f : Io300File Os) : Prop extends Mid C f where
  valid_le : (f.head : ℤ) ≤ f.fileSize → f.head < f.contents.length → f.head ≤ f.cacheEnd → f.Valid
  clean_valid : f.dirty = false → f.head ≤ f.cacheEnd ∧ f.Valid

theorem Io300File.Ok.loop (h : Ok C f) : Loop C f :=
  ⟨h.toMid, fun h1 h2 _ => h.valid_le h1 h2, fun hd => ⟨h.head_le_end, h.clean_valid hd⟩⟩

/-- The last statement of `io300_write`: a head past the window moves the end of the window. -/
def bump (C : ℕ) (f : Io300File Os) : Io300File Os :=
  if f.cacheEnd < f.head then { f with cacheEnd := f.cacheStart + C } else f

theorem contents_bump : (bump C f).contents = f.contents := by
  unfold bump; split_ifs <;> rfl

theorem bump_head : (bump C f).head = f.head := by unfold bump; split_ifs <;> rfl

theorem bump_cacheStart : (bump C f).cacheStart = f.cacheStart := by
  unfold bump; split_ifs <;> rfl

theorem bump_fileSize : (bump C f).fileSize = f.fileSize := by unfold bump; split_ifs <;> rfl

/-- At the end of the loop the handle is good again: what is behind a head that ran past the
    window is never read. -/
theorem Loop.bump_ok (h : Loop C f) : Ok C (bump C f) := by
  by_cases hlt : f.cacheEnd < f.head
  · have hh := h.head_le
    have hend : f.fileSize < f.head ∨ f.contents.length ≤ f.head := by
      rcases h.short (by omega) with h4 | h4 <;> omega
    have hg : bump C f = { f with cacheEnd := f.cacheStart + C } := if_pos hlt
    have hcont : { f with cacheEnd := f.cacheStart + C }.contents = f.contents := rfl
    rw [hg]
    refine ⟨⟨⟨h.start_le, hh, Nat.le_add_right _ _, le_rfl, h.cache_len, h.dir, h.clean⟩,
      fun hF hl => ?_, fun hs => ?_⟩, hh, fun hd => ?_, fun hF hl => ?_⟩
    · rw [hcont] at hl; simp only at hF hl; omega
    · simp at hs
    · have := (h.clean_valid hd).1; omega
    · rw [hcont] at hl; simp only at hF hl; omega
  · have hg : bump C f = f := if_neg hlt
    rw [hg]
    exact ⟨h.toMid, by omega, fun hd => (h.clean_valid hd).2,
      fun hF hl => h.valid_le hF hl (by omega)⟩

theorem Sized.bump (hs : Sized f) : Sized (bump C f) := by
  by_cases hlt : f.cacheEnd < f.head
  · have hg : Student.bump C f = { f with cacheEnd := f.cacheStart + C } := if_pos hlt
    rw [hg]
    refine ⟨hs.size_le, fun hF => ?_⟩
    have := (hs.valid hF).1
    omega
  · have hg : Student.bump C f = f := if_neg hlt
    rw [hg]; exact hs

/-! ## One round of the loop -/

/-- The handle `g` is `f` made ready for copying: it stands for the same file, with room behind
    the head. -/
structure Ready (C : ℕ) (f g : Io300File Os) : Prop where
  mid : Mid C g
  room : g.head < g.cacheStart + C
  contents : g.contents = f.contents
  head : g.head = f.head
  fileSize : g.fileSize = f.fileSize
  data_le : f.os.data.length ≤ g.os.data.length
  le_data : g.os.data.length ≤ max f.os.data.length f.head
  sized : Sized f → (g.head : ℤ) < g.fileSize → g.head ≤ g.cacheEnd ∧ g.Valid

/-- The window after the full one is full exactly if that one was: the boundaries are the same. -/
theorem windowsFull_fetched (hC : 0 < C) (h : Win C f) (hh : f.head = f.cacheStart + C)
    (he : f.head = f.cacheEnd) {calls : ℕ} (n : ℕ) :
    WindowsFull C (fetched C f calls) n ↔ WindowsFull C f n := by
  have hle := contents_le h
  have hdata : f.os.data.length ≤ f.contents.length := data_le_contents
  have hb : ∀ k, f.head + k * C = f.cacheStart + (k + 1) * C := fun k => by rw [hh]; ring
  simp only [WindowsFull, fetched, load, length_slice, hb]
  constructor
  · intro hg k hk hn hF
    by_cases hk1 : k = 1
    · rw [if_pos hk1]; omega
    · obtain ⟨j, rfl⟩ : ∃ j, k = j + 1 := ⟨k - 1, by omega⟩
      have h1 := hg j (by omega) hn hF
      have h2 := hb j
      have h3 : C ≤ j * C := Nat.le_mul_of_pos_left C (by omega)
      rw [if_neg hk1]
      by_cases hj : j = 1
      · rw [if_pos hj] at h1; subst hj; omega
      · rw [if_neg hj] at h1; omega
  · intro hf k hk hn hF
    have h1 := hf (k + 1) (by omega) hn hF
    have h2 := hb k
    rw [if_neg (by omega)] at h1
    split_ifs with hk1
    · subst hk1; omega
    · omega

/-- A window boundary at or behind the cached size does not matter. -/
theorem windowsFull_of_le (hF : f.fileSize ≤ f.cacheStart + C) (n : ℕ) :
    WindowsFull C f n := by
  intro k hk _ hlt
  have : C ≤ k * C := Nat.le_mul_of_pos_left C hk
  push_cast at hlt
  omega

/-- **Making room.** Unless it is short and below the cached size, a full window is replaced by
    the next one. -/
theorem writeRefill_spec (hC : 0 < C) (h : Loop C f)
    (hfull : f.head = f.cacheStart + C → (f.head : ℤ) < f.fileSize → f.head = f.cacheEnd) :
    ∃ g, writeRefill C .succeeding f = .ok (true, g) ∧ Ready C f g ∧
      ∀ n, WindowsFull C g n ↔ WindowsFull C f n := by
  have hdata : f.os.data.length ≤ f.contents.length := data_le_contents
  by_cases hh : f.head = f.cacheStart + C
  swap
  · have hle := h.head_le
    refine ⟨f, by rw [writeRefill, if_neg hh]; rfl, ⟨h.toMid, by omega, rfl, rfl, rfl, le_rfl,
      le_max_left _ _, fun hs hlt => hs.valid hlt.le⟩, fun _ => Iff.rfl⟩
  rw [writeRefill, if_pos hh]
  by_cases hF : (f.head : ℤ) < f.fileSize
  · -- below the cached size: load the next window
    have he := hfull hh hF
    obtain ⟨calls, hfetch⟩ := io300Fetch_eq h.toWin he
    have hok : Ok C (fetched C f calls) := fetched_ok h.cache_len h.dir
    refine ⟨fetched C f calls, ?_, ⟨hok.toMid, ?_, contents_fetched, rfl, rfl, hdata,
      contents_le h.toWin, fun _ _ => ⟨hok.head_le_end, hok.clean_valid rfl⟩⟩,
      windowsFull_fetched hC h.toWin hh he⟩
    · rw [if_pos hF, hfetch, ok_bind]; rfl
    · simp only [fetched, load]; omega
  · -- at or above it: write the window out
    have hok := h.bump_ok
    have hcont : (bump C f).contents = f.contents := contents_bump
    have hhead : (bump C f).head = f.head := bump_head
    have hsize : (bump C f).fileSize = f.fileSize := bump_fileSize
    have he : (bump C f).head = (bump C f).cacheEnd := by
      have h1 := hok.end_le
      have h2 := hok.head_le_end
      have h3 : (bump C f).cacheStart = f.cacheStart := bump_cacheStart
      omega
    refine ⟨flushed C (bump C f), ?_, ⟨flushed_mid hok.toWin he (Or.inl (by omega)), ?_,
      contents_flushed.trans hcont, hhead, hsize, ?_, ?_, fun _ hlt => ?_⟩, fun n => ?_⟩
    · rw [if_neg hF]
      exact bind_eq_ok.2 ⟨_, io300Flush_eq hok.toWin he.le, rfl⟩
    · simp only [flushed]; omega
    · simp only [flushed, hcont]; exact hdata
    · simp only [flushed, hcont]; exact contents_le h.toWin
    · simp only [flushed] at hlt; omega
    · refine iff_of_true (windowsFull_of_le ?_ n) (windowsFull_of_le ?_ n)
      · simp only [flushed]; omega
      · omega

theorem writeRefill_error (h : Loop C f) (hh : f.head = f.cacheStart + C)
    (hF : (f.head : ℤ) < f.fileSize) (hne : f.head ≠ f.cacheEnd) :
    writeRefill C .succeeding f = .error .assertion := by
  have := h.end_le
  rw [writeRefill, if_pos hh, if_pos hF, io300Fetch, checkInvariants_error (by omega)]
  rfl

/-- The bytes that are copied: all that are left, or as many as fill the window. -/
theorem writeCopy_eq (h : Win C f) (hroom : f.head < f.cacheStart + C) {buff : List UInt8}
    (hb : buff ≠ []) : ∃ bs rest, buff = bs ++ rest ∧ bs ≠ [] ∧
      writeCopy C f buff = .ok (f.put bs, rest) ∧ f.head + bs.length ≤ f.cacheStart + C ∧
      (rest ≠ [] → f.head + bs.length = f.cacheStart + C) := by
  have h1 := h.start_le
  have hpos := List.length_pos_of_ne_nil hb
  obtain ⟨n, hn⟩ : ∃ n, n = if buff.length < C - (f.head - f.cacheStart) then buff.length
    else C - (f.head - f.cacheStart) := ⟨_, rfl⟩
  have hn0 : 0 < n ∧ n ≤ buff.length ∧ f.head + n ≤ f.cacheStart + C ∧
      (n < buff.length → f.head + n = f.cacheStart + C) := by
    rw [hn]; split_ifs <;> omega
  have hlen : (buff.take n).length = n := by rw [List.length_take]; omega
  have hfit : f.head + (buff.take n).length ≤ f.cacheStart + C := by omega
  refine ⟨buff.take n, buff.drop n, (List.take_append_drop n buff).symm,
    List.ne_nil_of_length_pos (by omega), ?_, hfit, fun hrest => ?_⟩
  · simp only [writeCopy, ← hn, putCache_eq h hfit, ok_bind, put, hlen]
    rfl
  · have hlt := List.length_pos_of_ne_nil hrest
    rw [List.length_drop] at hlt
    rw [hlen]
    exact hn0.2.2.2 (by omega)

/-- **Copying into the window.** -/
theorem writeCopy_spec {g : Io300File Os} (hr : Ready C f g) {buff : List UInt8} (hb : buff ≠ []) :
    ∃ bs rest, buff = bs ++ rest ∧ bs ≠ [] ∧ writeCopy C g buff = .ok (g.put bs, rest) ∧
      Loop C (g.put bs) ∧ (Sized f → Sized (g.put bs)) ∧
      (g.put bs).contents = store 0 f.contents f.head bs := by
  have h1 := hr.mid.start_le
  have h3 := hr.mid.cache_len
  obtain ⟨bs, rest, hsplit, hne, hcopy, hfit, -⟩ := writeCopy_eq hr.mid.toWin hr.room hb
  obtain ⟨hmid, hstrong⟩ := hr.mid.put hne hfit
  refine ⟨bs, rest, hsplit, hne, hcopy,
    ⟨hmid, fun hF hl hle => hstrong (by exact_mod_cast hF) hl hle, by simp [put]⟩, fun hs => ?_, ?_⟩
  · refine sized_put hr.mid hne hfit ?_ (hr.sized hs)
    rw [hr.fileSize]
    exact hs.size_le.trans (by exact_mod_cast hr.data_le)
  · rw [contents_put h1 (by omega), hr.contents, hr.head]

theorem windowsFull_put {bs rest : List UInt8} :
    WindowsFull C (f.put bs) rest.length ↔ WindowsFull C f (bs ++ rest).length := by
  simp only [WindowsFull, put, List.length_append, Nat.add_assoc]

/-! ## The loop and the call -/

/-- **The loop of `io300_write`** ends, after at most as many rounds as bytes are written. -/
theorem io300WriteLoop_spec (hC : 0 < C) : ∀ (fuel : ℕ) (f : Io300File Os) (buff : List UInt8),
    buff.length < fuel → Loop C f → WindowsFull C f buff.length →
    ∃ g, io300WriteLoop C .succeeding fuel f buff = .ok (true, g) ∧ Loop C g ∧
      g.contents = store 0 f.contents f.head buff ∧ g.head = f.head + buff.length ∧
      g.fileSize = f.fileSize ∧ (Sized f → Sized g)
  | 0, _, _, hfuel, _, _ => by omega
  | fuel + 1, f, buff, hfuel, h, hw => by
    rw [io300WriteLoop]
    by_cases hb : buff = []
    · subst hb
      exact ⟨f, rfl, h, rfl, rfl, rfl, id⟩
    have hpos := List.length_pos_of_ne_nil hb
    obtain ⟨g, hrefill, hready, hiff⟩ := writeRefill_spec hC h fun hh hF => by
      have := hw 1 le_rfl (by omega) (by rw [one_mul, ← hh]; exact hF)
      rw [if_pos rfl] at this
      omega
    obtain ⟨bs, rest, rfl, hne, hcopy, hloop, hsized, hcont⟩ := writeCopy_spec hready hb
    have hlen := List.length_pos_of_ne_nil hne
    obtain ⟨k, hk, hkloop, hkcont, hkhead, hkF, hksized⟩ :=
      io300WriteLoop_spec hC fuel (g.put bs) rest
      (by rw [List.length_append] at hfuel; omega) hloop
      (windowsFull_put.2 ((hiff _).2 hw))
    refine ⟨k, ?_, hkloop, ?_, ?_, ?_, hksized ∘ hsized⟩
    · rw [if_neg hb, hrefill, ok_bind]
      simp only [if_true, hcopy, ok_bind]
      exact hk
    · rw [hkcont, hcont, ← store_store]
      simp only [put, hready.head]
    · rw [hkhead, List.length_append]
      simp only [put, hready.head]; omega
    · rw [hkF]; exact hready.fileSize

/-- **A short window below the cached size ends the loop in the assertion.** -/
theorem io300WriteLoop_error (hC : 0 < C) : ∀ (fuel : ℕ) (f : Io300File Os) (buff : List UInt8),
    buff.length < fuel → Loop C f → ¬ WindowsFull C f buff.length →
    io300WriteLoop C .succeeding fuel f buff = .error .assertion
  | 0, _, _, hfuel, _, _ => by omega
  | fuel + 1, f, buff, hfuel, h, hw => by
    rw [io300WriteLoop]
    by_cases hb : buff = []
    · subst hb
      exfalso
      refine hw fun k hk hn _ => ?_
      have h1 := h.head_le
      have h2 : C ≤ k * C := Nat.le_mul_of_pos_left C hk
      rw [List.length_nil] at hn
      omega
    rw [if_neg hb]
    by_cases hfull : f.head = f.cacheStart + C → (f.head : ℤ) < f.fileSize → f.head = f.cacheEnd
    · obtain ⟨g, hrefill, hready, hiff⟩ := writeRefill_spec hC h hfull
      obtain ⟨bs, rest, rfl, hne, hcopy, hloop, -, -⟩ := writeCopy_spec hready hb
      have hlen := List.length_pos_of_ne_nil hne
      rw [hrefill, ok_bind]
      simp only [if_true, hcopy, ok_bind]
      refine io300WriteLoop_error hC fuel _ rest (by rw [List.length_append] at hfuel; omega) hloop
        fun hfull' => hw ((hiff _).1 (windowsFull_put.1 hfull'))
    · push Not at hfull
      obtain ⟨hh, hF, hne⟩ := hfull
      rw [writeRefill_error h hh hF hne]
      rfl

/-- **Writing a block.** -/
theorem io300Write_spec (hC : 0 < C) (h : Ok C f) {buff : List UInt8}
    (hw : WindowsFull C f buff.length) {fuel : ℕ} (hfuel : buff.length < fuel) :
    ∃ g, io300Write C .succeeding fuel f buff = .ok ((buff.length : ℤ), g) ∧ Writes C f g buff := by
  obtain ⟨g, hg, hloop, hcont, hhead, hF, hsized⟩ :=
    io300WriteLoop_spec hC fuel f buff hfuel h.loop hw
  refine ⟨bump C g, ?_, hloop.bump_ok, bump_head.trans hhead, bump_fileSize.trans hF,
    contents_bump.trans hcont, fun hs => (hsized hs).bump⟩
  rw [io300Write, checkInvariants_ok h.toWin h.head_le_end, ok_bind, hg, ok_bind]
  rfl

theorem io300Write_error (hC : 0 < C) (h : Ok C f) {buff : List UInt8}
    (hw : ¬ WindowsFull C f buff.length) {fuel : ℕ} (hfuel : buff.length < fuel) :
    io300Write C .succeeding fuel f buff = .error .assertion := by
  rw [io300Write, checkInvariants_ok h.toWin h.head_le_end, ok_bind,
    io300WriteLoop_error hC fuel f buff hfuel h.loop hw]
  rfl

end CProj.FileIO.Student
