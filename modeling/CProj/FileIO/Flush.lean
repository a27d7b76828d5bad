/-
  `io300_flush` as a call of its own, and the flush of a seek that fails.

  Both leave a window of `CACHE_SIZE` bytes behind the head that has not been loaded, and one that
  is longer than the cache if the head was not at the end of the old one.  Every session goes on as if
  nothing had happened exactly if the head was there, and the new window is not read or the cache
  happens to hold its bytes.
-/
import CProj.FileIO.View

namespace CProj.FileIO.Student

open Io300File

variable {C fuel : ℕ} {f g : Io300File Os} {disk garbage : List UInt8} {ops : List Op} {s : Session}

/-- The calls `ops`, followed by `io300_close`, complete on both handles, with the same results and
    the same final file. -/
def Transparent (C fuel : ℕ) (f g : Io300File Os) (ops : List Op) : Prop :=
  ∃ rs f' g' data, outputs (call C .succeeding fuel) f ops = .ok (rs, f') ∧
    outputs (call C .succeeding fuel) g ops = .ok (rs, g') ∧
    closed C f' = .ok data ∧ closed C g' = .ok data

/-- Two handles with one view, of which the first answers from it. -/
theorem transparent_iff (hview : g.view = f.view) (hf : Answers C fuel f ops) :
    Transparent C fuel f g ops ↔ Answers C fuel g ops := by
  obtain ⟨f', hout, hclose⟩ := hf
  constructor
  · rintro ⟨rs, f'', g', data, hout', hgout, hclose', hgclose⟩
    cases hout.symm.trans hout'
    cases hclose.symm.trans hclose'
    rw [Answers, hview]
    exact ⟨g', hgout, hgclose⟩
  · rintro ⟨g', hgout, hgclose⟩
    rw [hview] at hgout hgclose
    exact ⟨_, f', g', _, hout, hgout, hclose, hgclose⟩

/-! ## Windows longer than the cache -/

theorem call_of_checkInvariants {e : Abort} {sys : Sys} (h : checkInvariants C f = .error e)
    (op : Op) : call C sys fuel f op = .error e := by
  cases op with
  | seek pos => rw [call, io300Seek, h]; rfl
  | readc => rw [call, io300Readc, h]; rfl
  | read sz => rw [call, io300Read, h]; rfl
  | writec ch => rw [call, io300Writec, h]; rfl
  | write buff => rw [call, io300Write, h]; rfl

/-- A handle with such a window completes nothing. -/
theorem not_transparent (h : C < g.cacheEnd - g.cacheStart) : ¬ Transparent C fuel f g ops := by
  have hcheck : checkInvariants C g = .error .assertion := by
    rw [checkInvariants, if_neg]
    omega
  rintro ⟨rs, f', g', data, -, hout, -, hclose⟩
  cases ops with
  | nil =>
    cases hout
    rw [closed, io300Close, hcheck] at hclose
    cases hclose
  | cons op ops =>
    obtain ⟨r, k, rs', hcall, -⟩ := outputs_cons.1 hout
    rw [call_of_checkInvariants hcheck] at hcall
    cases hcall

/-! ## The handle after a flush -/

/-- The handle after a flush, when `n` system calls have been made. -/
def reflushed (C n : ℕ) (f : Io300File Os) : Io300File Os :=
  { flushed C f with os := { (flushed C f).os with calls := n } }

/-- The flush comes at the end of the window, and nothing is to be read behind it, or the next bytes
    of the file are in the cache already. -/
def FlushHarmless (C : ℕ) (f : Io300File Os) : Prop :=
  f.head = f.cacheEnd ∧ (f.fileSize < f.head ∨ f.cache = slice f.contents f.head C)

instance (C : ℕ) (f : Io300File Os) : Decidable (FlushHarmless C f) := inferInstanceAs (Decidable (_ ∧ _))

theorem contents_reflushed (n : ℕ) : (reflushed C n f).contents = f.contents :=
  contents_flushed (C := C)

theorem view_reflushed (n : ℕ) : (reflushed C n f).view = f.view := by
  simp only [view, contents_reflushed]
  rfl

/-- A flush at the end of the window leaves a loose handle. -/
theorem loose_reflushed (n : ℕ) (h : Win C f) (hs : Sized f) (he : f.head = f.cacheEnd) :
    Loose C (reflushed C n f) := by
  have hdata : f.os.data.length ≤ f.contents.length := data_le_contents
  have hsize := hs.size_le
  refine ⟨⟨le_rfl, by simp [reflushed, flushed], by simp [reflushed, flushed]; omega,
    by simp [reflushed, flushed]; omega, h.cache_len, h.dir, fun _ => contents_reflushed n⟩,
    by simp [reflushed, flushed]; omega, fun hlt => ?_, ?_⟩
  · simp only [reflushed, flushed] at hlt
    omega
  · simp only [reflushed, flushed]
    exact hsize.trans (by exact_mod_cast hdata)

/-- The cache as the new window. -/
theorem reflushed_cache (n : ℕ) (h : Win C f) (he : f.head = f.cacheEnd) :
    (reflushed C n f).cacheEnd - (reflushed C n f).head = C ∧
      slice (reflushed C n f).cache ((reflushed C n f).head - (reflushed C n f).cacheStart) C =
        f.cache := by
  have hwhole : slice f.cache 0 C = f.cache := by
    rw [slice, List.drop_zero, List.take_of_length_le h.cache_len.le]
  simp only [reflushed, flushed, Nat.sub_self, hwhole, and_true]
  omega

section
variable (hC : 0 < C) (h : Good C s) (hs : Sized s.f)
include hC h hs

/-- A handle with the same view that is sized goes on with the session. -/
theorem Good.transparent_sized (hview : g.view = s.f.view) (hloose : Loose C g) (hsized : Sized g)
    (hfuel : ∀ op ∈ ops, op.size < fuel)
    (hin : Meets (Session.step C .succeeding fuel) InFile s ops) : Transparent C fuel s.f g ops := by
  have hstays := h.staysIn hC hs hin hfuel
  rw [transparent_iff hview ((hs.loose h.ok).answers hC hs hstays hfuel)]
  exact hloose.answers hC hsized (by rw [hview]; exact hstays) hfuel

/-- A session that goes on as it was has the bytes of a whole window in the cache: it may read
    them. -/
theorem Good.cache_of_transparent (n : ℕ) (he : s.f.head = s.f.cacheEnd)
    (hF : (s.f.head : ℤ) ≤ s.f.fileSize)
    (hall : Transparent C (C + 1) s.f (reflushed C n s.f) [.read C]) :
    s.f.cache = slice s.f.contents s.f.head C := by
  have hfuel : ∀ op ∈ [Op.read C], op.size < C + 1 := by simp [Op.size]
  have hin : Meets (Session.step C .succeeding (C + 1)) InFile s [.read C] :=
    ⟨trivial, fun _ _ => trivial⟩
  have hstays := h.staysIn hC hs hin hfuel
  have hans := (transparent_iff (view_reflushed n)
    ((hs.loose h.ok).answers hC hs hstays hfuel)).1 hall
  rw [← view_reflushed (C := C) n] at hstays
  have hloose := loose_reflushed n h.ok.toWin hs he
  have hfresh : ReadsFresh (reflushed C n s.f) C := ((hloose.answers_iff hC hstays hfuel).1 hans).1
  obtain ⟨hlen, hcache⟩ := reflushed_cache n h.ok.toWin he
  rw [ReadsFresh, hlen, min_self, hcache, contents_reflushed] at hfresh
  exact hfresh hF

omit hC in
/-- The handle is sized if the new window is not read or holds the next bytes. -/
theorem Good.sized_reflushed (n : ℕ) (hflush : FlushHarmless C s.f) : Sized (reflushed C n s.f) := by
  obtain ⟨he, hbytes⟩ := hflush
  have hloose := loose_reflushed n h.ok.toWin hs he
  refine ⟨hloose.size_le, fun hF => ⟨hloose.head_le_end, ?_⟩⟩
  obtain ⟨hlen, hcache⟩ := reflushed_cache n h.ok.toWin he
  rw [Valid, hlen, hcache, contents_reflushed]
  exact hbytes.resolve_left (not_lt.2 hF)

/-- **A handle that has been flushed** goes on with every session as if it had not exactly if the
    flush is harmless. -/
theorem Good.reflushed_iff (n : ℕ) :
    (∀ fuel ops, (∀ op ∈ ops, op.size < fuel) →
      Meets (Session.step C .succeeding fuel) InFile s ops →
        Transparent C fuel s.f (reflushed C n s.f) ops) ↔ FlushHarmless C s.f := by
  constructor
  · intro hall
    have he : s.f.head = s.f.cacheEnd := by
      by_contra hne
      have hle := h.ok.head_le_end
      refine not_transparent ?_ (hall 1 [] (by simp) trivial)
      simp only [reflushed, flushed]
      omega
    refine ⟨he, or_iff_not_imp_left.2 fun hF => ?_⟩
    exact h.cache_of_transparent hC hs n he (not_lt.1 hF)
      (hall _ _ (by simp [Op.size]) ⟨trivial, fun _ _ => trivial⟩)
  · intro hflush fuel ops hfuel hin
    exact h.transparent_sized hC hs (view_reflushed n) (loose_reflushed n h.ok.toWin hs hflush.1)
      (h.sized_reflushed hs n hflush) hfuel hin

end

/-! ## Results -/

/-- **`io300_flush` after a session.** It always brings the logical file to the disk, and it is
    transparent for every continuation of the session exactly if it is harmless. -/
theorem flush_transparent_iff (disk garbage : List UInt8) (ops₁ : List Op) (hC : 0 < C)
    (hg : garbage.length = C) (hfuel : ∀ op ∈ ops₁, op.size < fuel) :
    ∃ s₀, Session.start C .succeeding disk garbage = .ok s₀ ∧
      (Meets (Session.step C .succeeding fuel) InFile s₀ ops₁ →
        ∃ s g, run (Session.step C .succeeding fuel) s₀ ops₁ = .ok s ∧
          io300Flush C .succeeding s.f = .ok (0, g) ∧ g.os.data = s.file.contents ∧
          ((∀ fuel ops₂, (∀ op ∈ ops₂, op.size < fuel) →
            Meets (Session.step C .succeeding fuel) InFile s ops₂ → Transparent C fuel s.f g ops₂) ↔
              FlushHarmless C s.f)) := by
  obtain ⟨s₀, hstart, -, hreach⟩ := reached_good disk ops₁ hC hg hfuel
  refine ⟨s₀, hstart, fun hmeets => ?_⟩
  obtain ⟨s, hrun, hgood, hsized⟩ := hreach hmeets
  exact ⟨s, flushed C s.f, hrun, io300Flush_eq hgood.ok.toWin hgood.ok.head_le_end,
    hgood.contents.symm, hgood.reflushed_iff hC hsized (flushed C s.f).os.calls⟩

/-- Half of a file of eight equal bytes is read: the cache holds the other half, too. -/
theorem flush_transparent_equal : ∃ s₀ s g,
    Session.start 4 .succeeding (List.replicate 8 7) [0, 0, 0, 0] = .ok s₀ ∧
    run (Session.step 4 .succeeding 5) s₀ [.read 4] = .ok s ∧
    io300Flush 4 .succeeding s.f = .ok (0, g) ∧ g.os.data = s.file.contents ∧
    Transparent 4 2 s.f g [.readc, .writec 8] := by
  have hfuel : ∀ op ∈ [Op.read 4], op.size < 5 := by decide
  obtain ⟨s₀, hstart, h⟩ := flush_transparent_iff (List.replicate 8 7) [0, 0, 0, 0] [.read 4]
    (by decide) rfl hfuel
  obtain ⟨s, g, hrun, hflush, hdata, hiff⟩ := h ⟨trivial, fun _ _ => trivial⟩
  obtain ⟨t, ⟨t₀, hstart', -, hrun'⟩, hharmless⟩ := exists_reached 4 5 (List.replicate 8 7) [0, 0, 0, 0]
    InFile [.read 4] (fun s => decide (FlushHarmless 4 s.f)) true (fun _ => ⟨trivial, fun _ _ => trivial⟩)
    (by decide)
  cases hstart.symm.trans hstart'
  cases hrun.symm.trans hrun'
  exact ⟨s₀, s, g, hstart, hrun, hflush, hdata, hiff.2 (of_decide_eq_true hharmless) 2 _ (by decide)
    ⟨trivial, fun _ _ => ⟨trivial, fun _ _ => trivial⟩⟩⟩

/-- A file of one byte is opened and flushed: `io300_close` then finds a window of 4097 bytes.  A
    file of 4097 bytes is read up to the last one and flushed: the next byte read is the first one of
    the file. -/
theorem flush_not_transparent :
    (∃ s g, Reached 4096 1 [97] (List.replicate 4096 0) InFile [] s ∧
      io300Flush 4096 .succeeding s.f = .ok (0, g) ∧ ¬ Transparent 4096 1 s.f g []) ∧
    (∃ s g, Reached 4096 4097 (List.replicate 4096 97 ++ [98]) (List.replicate 4096 0) InFile
        [.read 4096] s ∧
      io300Flush 4096 .succeeding s.f = .ok (0, g) ∧ ¬ Transparent 4096 4097 s.f g [.readc]) := by
  constructor
  · obtain ⟨s, hs, hv⟩ := exists_reached 4096 1 [97] (List.replicate 4096 0) InFile []
      (fun s => (s.f.cacheStart, s.f.head, s.f.cacheEnd)) (0, 0, 1) (fun _ => trivial) (by decide +kernel)
    obtain ⟨-, h2, h3⟩ : s.f.cacheStart = 0 ∧ s.f.head = 0 ∧ s.f.cacheEnd = 1 := by simpa using hv
    have hok := (hs.sized (by decide) (by decide +kernel) (by decide)).1.ok
    refine ⟨s, _, hs, io300Flush_eq hok.toWin hok.head_le_end, not_transparent ?_⟩
    simp only [flushed]
    omega
  · obtain ⟨s, hs, hv⟩ := exists_reached 4096 4097 (List.replicate 4096 97 ++ [98])
      (List.replicate 4096 0) InFile [.read 4096]
      (fun s => ((call 4096 .succeeding 4097 s.f .readc).map (·.1),
        (call 4096 .succeeding 4097 (flushed 4096 s.f) .readc).map (·.1)))
      (.ok ⟨98, []⟩, .ok ⟨97, []⟩) (fun _ => ⟨trivial, fun _ _ => trivial⟩) (by decide +kernel)
    obtain ⟨h1, h2⟩ := Prod.ext_iff.1 hv
    simp only at h1 h2
    have hok := (hs.sized (by decide) (by decide +kernel) (by decide)).1.ok
    refine ⟨s, _, hs, io300Flush_eq hok.toWin hok.head_le_end, ?_⟩
    rintro ⟨rs, f', g', data, hf, hg, -⟩
    obtain ⟨r, k, rs', hcall, -, rfl⟩ := outputs_cons.1 hf
    obtain ⟨r', k', rs'', hcall', -, heq⟩ := outputs_cons.1 hg
    obtain ⟨rfl, -⟩ := List.cons_eq_cons.1 heq
    rw [hcall] at h1
    rw [hcall'] at h2
    have h3 : r = ⟨98, []⟩ := Except.ok.inj h1
    have h4 : r = ⟨97, []⟩ := Except.ok.inj h2
    rw [h3] at h4
    cases h4

/-! ## Seeks that fail -/

/-- The handle after a seek to a negative offset. -/
def seekFailed (C : ℕ) (f : Io300File Os) : Io300File Os :=
  if f.dirty then reflushed C (f.os.calls + 2) f
  else { f with os := { f.os with calls := f.os.calls + 1 } }

theorem io300Seek_neg (h : Win C f) (hle : f.head ≤ f.cacheEnd) {pos : ℤ} (hpos : pos < 0) :
    io300Seek C .succeeding f pos = .ok (-1, seekFailed C f) := by
  rw [io300Seek, checkInvariants_ok h hle, ok_bind]
  cases hd : f.dirty with
  | true =>
    rw [flushIfDirty, if_pos hd, io300Flush_eq h hle]
    simp only [ok_bind, pure, Except.pure, lseek, if_pos (Or.inl hpos), seekFailed, hd, if_true]
    rfl
  | false =>
    rw [flushIfDirty, if_neg (by simp [hd])]
    simp only [ok_bind, lseek, if_pos (Or.inl hpos), seekFailed, hd]
    rfl

/-- The number of system calls made so far does not matter. -/
theorem Loose.calls (h : Loose C f) (n : ℕ) : Loose C { f with os := { f.os with calls := n } } :=
  ⟨⟨h.start_le, h.head_le, h.start_le_end, h.end_le, h.cache_len, h.dir, h.clean⟩, h.head_le_end,
    h.short, h.size_le⟩

/-- The seek does what it should: it returns its target, or it fails and leaves every continuation
    of the session as it was. -/
def SeekSound (C : ℕ) (s : Session) (pos : ℤ) : Prop :=
  ∃ r g, io300Seek C .succeeding s.f pos = .ok (r, g) ∧ (r ≠ -1 → r = pos) ∧
    (r = -1 → ∀ fuel ops, (∀ op ∈ ops, op.size < fuel) →
      Meets (Session.step C .succeeding fuel) InFile s ops → Transparent C fuel s.f g ops)

/-- The target fits an `int`, or the seek fails on a clean window, or at the end of one with nothing
    to be read behind it, or with the next bytes of the file in the cache already. -/
def SeekHarmless (C : ℕ) (f : Io300File Os) (pos : ℤ) : Prop :=
  0 ≤ pos ∧ pos < 2 ^ 31 ∨ pos < 0 ∧ (f.dirty = false ∨
    f.head = f.cacheEnd ∧ (f.fileSize < f.head ∨ f.cache = slice f.contents f.head C))

theorem toInt_eq_iff {pos : ℤ} (hpos : 0 ≤ pos) : toInt pos = pos ↔ pos < 2 ^ 31 := by
  unfold toInt
  rw [Int.bmod_def]
  split_ifs <;> omega

theorem seekFailed_clean (hd : f.dirty = false) :
    seekFailed C f = { f with os := { f.os with calls := f.os.calls + 1 } } :=
  if_neg (by simp [hd])

theorem seekFailed_dirty (hd : f.dirty = true) :
    seekFailed C f = reflushed C (f.os.calls + 2) f :=
  if_pos hd

/-- **A seek that fails** leaves every session as it was exactly if there was nothing to flush, or the
    flush is harmless. -/
theorem Good.seekFailed_iff (hC : 0 < C) (h : Good C s) (hs : Sized s.f) :
    (∀ fuel ops, (∀ op ∈ ops, op.size < fuel) →
      Meets (Session.step C .succeeding fuel) InFile s ops →
        Transparent C fuel s.f (seekFailed C s.f) ops) ↔
    s.f.dirty = false ∨ FlushHarmless C s.f := by
  cases hd : s.f.dirty with
  | false =>
    refine iff_of_true (fun fuel ops hfuel hin => ?_) (Or.inl rfl)
    rw [seekFailed_clean hd]
    exact h.transparent_sized hC hs rfl ((hs.loose h.ok).calls _) ⟨hs.size_le, hs.valid⟩ hfuel hin
  | true =>
    rw [seekFailed_dirty hd, or_iff_right Bool.noConfusion]
    exact h.reflushed_iff hC hs _

/-- **Seeks of a session.** In every state that a session reaches, a seek that meets the condition
    does what it should; a seek to a negative offset, or to one that does not come out as `-1`, does
    so only then. -/
theorem seek_sound (hC : 0 < C) (hg : garbage.length = C) (hfuel : ∀ op ∈ ops, op.size < fuel)
    (hs : Reached C fuel disk garbage InFile ops s) (pos : ℤ) :
    (SeekHarmless C s.f pos → SeekSound C s pos) ∧
    (pos < 0 ∨ toInt pos ≠ -1 → SeekSound C s pos → SeekHarmless C s.f pos) := by
  obtain ⟨hgood, hsized⟩ := hs.sized hC hg hfuel
  have hok := hgood.ok
  rcases lt_or_ge pos 0 with hneg | hpos
  · have hseek := io300Seek_neg hok.toWin hok.head_le_end hneg
    constructor
    · rintro (⟨hpos, -⟩ | ⟨-, hharmless⟩)
      · omega
      · exact ⟨-1, _, hseek, fun h => absurd rfl h,
          fun _ => (hgood.seekFailed_iff hC hsized).2 hharmless⟩
    · rintro - ⟨r, g, hr, -, hall⟩
      cases hseek.symm.trans hr
      exact Or.inr ⟨hneg, (hgood.seekFailed_iff hC hsized).1 (hall rfl)⟩
  · obtain ⟨g, hseek, -⟩ := io300Seek_spec hok.toWin hok.head_le_end hpos
    constructor
    · rintro (⟨-, hlt⟩ | ⟨hneg, -⟩)
      · have hret : toInt pos = pos := (toInt_eq_iff hpos).2 hlt
        rw [hret] at hseek
        exact ⟨pos, g, hseek, fun _ => rfl, fun h => by omega⟩
      · omega
    · rintro hne ⟨r, g', hr, hret, -⟩
      cases hseek.symm.trans hr
      have hne' : toInt pos ≠ -1 := hne.resolve_left (not_lt.2 hpos)
      exact Or.inl ⟨hpos, (toInt_eq_iff hpos).1 (hret hne')⟩

/-- Four bytes fill the window of a file that was empty. -/
theorem seek_sound_full : ∃ s,
    Reached 4 1 [] [0, 0, 0, 0] InFile [.writec 1, .writec 2, .writec 3, .writec 4] s ∧
    SeekHarmless 4 s.f (-1) ∧ SeekSound 4 s (-1) := by
  obtain ⟨s, hs, hv⟩ := exists_reached 4 1 [] [0, 0, 0, 0] InFile
    [.writec 1, .writec 2, .writec 3, .writec 4] (fun s => (s.f.head, s.f.cacheEnd, s.f.fileSize))
    (4, 4, 0) (fun _ => ⟨trivial, fun _ _ => ⟨trivial, fun _ _ => ⟨trivial, fun _ _ => ⟨trivial,
      fun _ _ => trivial⟩⟩⟩⟩) (by decide)
  obtain ⟨h1, h2, h3⟩ : s.f.head = 4 ∧ s.f.cacheEnd = 4 ∧ s.f.fileSize = 0 := by simpa using hv
  have hharmless : SeekHarmless 4 s.f (-1) := by
    refine Or.inr ⟨by decide, Or.inr ⟨by omega, Or.inl ?_⟩⟩
    omega
  have hfuel : ∀ op ∈ [Op.writec 1, .writec 2, .writec 3, .writec 4], op.size < 1 := by decide
  exact ⟨s, hs, hharmless, (seek_sound (by decide) rfl hfuel hs (-1)).1 hharmless⟩

/-- One byte is written to an empty file: a seek to a negative offset flushes it and leaves a window
    longer than the cache, and a seek to `2 ^ 31` returns a negative number. -/
theorem seek_not_sound : ∃ s, Reached 4096 1 [] (List.replicate 4096 0) InFile [.writec 97] s ∧
    ¬ SeekSound 4096 s (-1) ∧ ¬ SeekSound 4096 s (2 ^ 31) := by
  obtain ⟨s, hs, hv⟩ := exists_reached 4096 1 [] (List.replicate 4096 0) InFile [.writec 97]
    (fun s => (s.f.dirty, s.f.head, s.f.cacheEnd)) (true, 1, 4096)
    (fun _ => ⟨trivial, fun _ _ => trivial⟩) (by decide +kernel)
  obtain ⟨h1, h2, h3⟩ : s.f.dirty = true ∧ s.f.head = 1 ∧ s.f.cacheEnd = 4096 := by simpa using hv
  obtain ⟨hgood, hsized⟩ := hs.sized (by decide) (by decide +kernel) (by decide)
  have hok := hgood.ok
  refine ⟨s, hs, ?_, ?_⟩
  · rintro ⟨r, g, hr, -, hall⟩
    cases (io300Seek_neg hok.toWin hok.head_le_end (by decide)).symm.trans hr
    rcases (hgood.seekFailed_iff (by decide) hsized).1 (hall rfl) with hd | ⟨he, -⟩
    · rw [h1] at hd
      cases hd
    · omega
  · rintro ⟨r, g, hr, hret, -⟩
    obtain ⟨g', hseek, -⟩ := io300Seek_spec hok.toWin hok.head_le_end
      (show (0 : ℤ) ≤ 2 ^ 31 by decide)
    cases hseek.symm.trans hr
    exact absurd (hret (by decide)) (by decide)

end CProj.FileIO.Student
