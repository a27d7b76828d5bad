/-
  What each call of `student.c` does to a good handle, when every system call succeeds.

  `io300Flush` and `io300Fetch` are computed; the calls of `io300.h` are described by the file
  they leave (`contents`), the head, and the value they return.  `WindowsFull` is the exact
  condition under which `io300_write` does not run into the assertion of `check_invariants`.
-/
import CProj.FileIO.Window

namespace CProj.FileIO.Student

open Io300File

variable {C : ℕ} {f : Io300File Os}

theorem checkInvariants_ok (h : Win C f) (hle : f.head ≤ f.cacheEnd) :
    checkInvariants C f = .ok () := by
  have h1 := h.start_le
  have h2 := h.end_le
  rw [checkInvariants, if_pos ⟨⟨h1, hle⟩, by omega⟩]

theorem checkInvariants_error (h : f.cacheEnd < f.head) :
    checkInvariants C f = .error .assertion := by
  rw [checkInvariants, if_neg]
  omega

/-! ## Flush and fetch -/

/-- The handle after a flush. -/
def flushed (C : ℕ) (f : Io300File Os) : Io300File Os :=
  { f with
    os := { f.os with data := f.contents, calls := f.os.calls + 1 }
    cacheStart := f.head
    cacheEnd := f.cacheEnd + C
    dirty := false }

theorem io300Flush_eq (h : Win C f) (hle : f.head ≤ f.cacheEnd) :
    io300Flush C .succeeding f = .ok (0, flushed C f) := by
  have h1 := h.head_le
  have h2 : getCache C f 0 (f.head - f.cacheStart) =
      .ok (f.cache.take (f.head - f.cacheStart)) := by
    rw [getCache, if_pos (by omega)]; rfl
  rw [io300Flush, checkInvariants_ok h hle, ok_bind, h2]
  rfl

@[simp] theorem contents_flushed : (flushed C f).contents = f.contents :=
  contents_of_head_eq rfl

/-- The handle after its window has been loaded with up to `n` bytes of the disk, from the head
    on. -/
def load (f : Io300File Os) (n : ℕ) : Io300File Os :=
  { f with
    cache := store 0 f.cache 0 (slice f.os.data f.head n)
    cacheStart := f.head
    cacheEnd := f.head + (slice f.os.data f.head n).length
    dirty := false }

@[simp] theorem contents_load {n : ℕ} : (load f n).contents = f.os.data := contents_of_head_eq rfl

theorem load_valid {n : ℕ} : (load f n).Valid := by
  rw [Valid, contents_load]
  simp only [load, Nat.sub_self, Nat.add_sub_cancel_left]
  rw [slice_store, length_slice]
  exact (slice_min_length n).symm

theorem load_ok (f : Io300File Os) (hC : f.cache.length = C) (hd : f.direction = 1) {n : ℕ}
    (hn : n ≤ C) (hF : n = C ∨ f.fileSize ≤ f.head + n) : Ok C (load f n) := by
  have hlen : (slice f.os.data f.head n).length = min n (f.os.data.length - f.head) :=
    length_slice n
  have hcache : (load f n).cache.length = C := by
    rcases eq_or_ne (slice f.os.data f.head n) [] with h | h
    · simp [load, h, hC]
    · simp only [load, length_store h]; omega
  refine ⟨⟨⟨le_rfl, by simp [load], by simp [load], ?_, hcache, hd, fun _ => contents_load⟩,
    fun _ _ => load_valid, fun hs => ?_⟩, by simp [load], fun _ => load_valid,
    fun _ _ => load_valid⟩
  · simp only [load]; omega
  · rw [contents_load]
    simp only [load] at hs ⊢
    omega

/-- The handle after a fetch at the end of the window: everything is written back and the next
    window is loaded. -/
def fetched (C : ℕ) (f : Io300File Os) (calls : ℕ) : Io300File Os :=
  load { f with os := { f.os with data := f.contents, calls := calls } } C

section
variable {calls : ℕ}

@[simp] theorem contents_fetched : (fetched C f calls).contents = f.contents := contents_load

theorem fetched_ok (hC : f.cache.length = C) (hd : f.direction = 1) :
    Ok C (fetched C f calls) :=
  load_ok { f with os := { f.os with data := f.contents, calls := calls } } hC hd le_rfl (Or.inl rfl)

end

theorem fetchLoad_eq (f : Io300File Os) : fetchLoad C .succeeding f f.head (f.head + C) =
    .ok (0, { load f C with
      dirty := f.dirty, os := { f.os with calls := f.os.calls + 1 } }) := by
  have hput : ∀ g : Io300File Os, putCache C g 0 (slice f.os.data f.head C) =
      .ok { g with cache := store 0 g.cache 0 (slice f.os.data f.head C) } := by
    intro g
    rw [putCache, if_pos (by rw [length_slice]; omega)]
  simp only [fetchLoad, Sys.device_pread, pread, Sys.succeeding, Outcome.cut,
    Nat.add_sub_cancel_left, hput]
  rfl

/-- **A fetch at the end of the window loads the next one.** -/
theorem io300Fetch_eq (h : Win C f) (hle : f.head = f.cacheEnd) :
    ∃ calls, io300Fetch C .succeeding f = .ok (0, fetched C f calls) := by
  have hdir := h.dir
  rw [io300Fetch, checkInvariants_ok h hle.le, ok_bind]
  cases hd : f.dirty with
  | true =>
    have hflush : fetchFlush C .succeeding f = .ok (flushed C f) := by
      rw [fetchFlush, if_pos hd, io300Flush_eq h hle.le]; rfl
    refine ⟨f.os.calls + 2, ?_⟩
    rw [hflush, ok_bind]
    simp only [flushed, hdir, lt_irrefl, if_false, show ¬ f.head > f.cacheEnd + C by omega, if_true,
      fetched, load]
    exact fetchLoad_eq { flushed C f with direction := 1 }
  | false =>
    have hcont := h.clean hd
    have hflush : fetchFlush C .succeeding f = .ok { f with cacheStart := f.head } := by
      rw [fetchFlush, if_neg (by simp [hd]), hle]
    refine ⟨f.os.calls + 1, ?_⟩
    rw [hflush, ok_bind]
    simp only [hdir, lt_irrefl, if_false, show ¬ f.head > f.cacheEnd by omega, if_true, fetched,
      load, hcont]
    rw [fetchLoad_eq]
    simp only [load, hd]

/-- The cached size is not beyond the end of the file on disk, and a window that may be read is
    valid: the case of sessions that never seek beyond the end of the file. -/
structure Sized (f : Io300File Os) : Prop where
  size_le : f.fileSize ≤ f.os.data.length
  valid : (f.head : ℤ) ≤ f.fileSize → f.head ≤ f.cacheEnd ∧ f.Valid

/-- The handle `g` is `f` after the bytes `bs` have been read: their number moves the head, and if
    the window of `f` is valid they are the bytes of the file, which is then unchanged. -/
structure Reads (C : ℕ) (f g : Io300File Os) (bs : List UInt8) : Prop where
  ok : Ok C g
  head : g.head = f.head + bs.length
  fileSize : g.fileSize = f.fileSize
  dirty : f.dirty = false → g.dirty = false
  data : f.os.data.length ≤ g.os.data.length
  valid : f.Valid → g.Valid
  contents : bs = [] ∨ f.Valid → g.contents = f.contents
  bytes : f.Valid → bs = slice f.contents f.head bs.length

theorem Reads.refl (h : Ok C f) : Reads C f f [] :=
  ⟨h, rfl, rfl, id, le_rfl, id, fun _ => rfl, fun _ => by simp [slice]⟩

theorem Reads.trans {g k : Io300File Os} {as bs : List UInt8} (h1 : Reads C f g as)
    (h2 : Reads C g k bs) : Reads C f k (as ++ bs) := by
  refine ⟨h2.ok, ?_, h2.fileSize.trans h1.fileSize, h2.dirty ∘ h1.dirty, h1.data.trans h2.data,
    h2.valid ∘ h1.valid, fun hv => ?_, fun hv => ?_⟩
  · rw [h2.head, h1.head, List.length_append]; omega
  · rcases hv with hv | hv
    · obtain ⟨h3, h4⟩ := List.append_eq_nil_iff.1 hv
      rw [h2.contents (Or.inl h4), h1.contents (Or.inl h3)]
    · rw [h2.contents (Or.inr (h1.valid hv)), h1.contents (Or.inr hv)]
  · have hb := h2.bytes (h1.valid hv)
    rw [h1.contents (Or.inr hv), h1.head] at hb
    rw [List.length_append, slice_add, ← hb, ← h1.bytes hv]

/-- A fetch reads nothing. -/
theorem reads_fetched (h : Ok C f) {calls : ℕ} : Reads C f (fetched C f calls) [] :=
  have hok : Ok C (fetched C f calls) := fetched_ok h.cache_len h.dir
  ⟨hok, rfl, rfl, fun _ => rfl, data_le_contents, fun _ => hok.clean_valid rfl,
    fun _ => contents_fetched, fun _ => by simp [slice]⟩

/-- Reading the next bytes of the window. -/
theorem reads_advance (h : Ok C f) {n : ℕ} (hn : f.head + n ≤ f.cacheEnd) :
    Reads C f { f with head := f.head + n } (slice f.cache (f.head - f.cacheStart) n) := by
  have h1 := h.start_le
  have h2 := h.end_le
  have h3 := h.cache_len
  have hlen : (slice f.cache (f.head - f.cacheStart) n).length = n := by rw [length_slice]; omega
  refine ⟨h.advance hn, by rw [hlen], rfl, id, le_rfl, fun hv => hv.advance h.toWin hn,
    fun hv => ?_, fun hv => ?_⟩
  · rcases hv with hv | hv
    · have h0 : n = 0 := by rw [← hlen, hv, List.length_nil]
      subst h0; rfl
    · exact hv.contents_advance h.toWin hn
  · rw [hlen]; exact hv.slice_eq (by omega)

theorem fetched_head_eq (hC : 0 < C) {calls : ℕ} :
    (fetched C f calls).head = (fetched C f calls).cacheEnd ↔ f.contents.length ≤ f.head := by
  simp only [fetched, load, length_slice]; omega

/-! ## Opening, seeking, closing -/

theorem io300Filesize_eq (h : Win C f) (hle : f.head ≤ f.cacheEnd) :
    io300Filesize C .succeeding f =
      .ok (f.os.data.length, { f with os := { f.os with calls := f.os.calls + 1 } }) := by
  rw [io300Filesize, checkInvariants_ok h hle, ok_bind]
  rfl

/-- **A freshly opened handle** stands for the file on disk, with the head at 0. -/
theorem io300Open_spec (disk : List UInt8) {garbage : List UInt8} (hg : garbage.length = C) :
    ∃ f, io300Open C .succeeding disk garbage = .ok f ∧ Ok C f ∧ f.contents = disk ∧ f.head = 0 ∧
      f.fileSize = disk.length ∧ f.dirty = false ∧ f.os.data = disk := by
  set f₀ : Io300File Os := ⟨⟨disk, 0, 0⟩, garbage, false, 0, 0, 0, 0, 1⟩
  set f₁ : Io300File Os := ⟨⟨disk, 0, 1⟩, garbage, false, 0, 0, 0, disk.length, 1⟩
  have hsize : io300Filesize C .succeeding f₀ =
      .ok (disk.length, { f₀ with os := { f₀.os with calls := 1 } }) := by
    rw [io300Filesize, checkInvariants, if_pos (by simp [f₀])]; rfl
  have hwin : Win C f₁ :=
    ⟨le_rfl, by simp [f₁], le_rfl, by simp [f₁], hg, rfl, fun _ => rfl⟩
  obtain ⟨calls, hfetch⟩ := io300Fetch_eq hwin rfl
  have hok : Ok C (fetched C f₁ calls) := fetched_ok hg rfl
  refine ⟨_, ?_, hok, contents_fetched, rfl, rfl, rfl, rfl⟩
  rw [io300Open, hsize, ok_bind]
  change (io300Fetch C .succeeding f₁ >>= fun x => do
    checkInvariants C x.2
    return x.2) = _
  rw [hfetch, ok_bind]
  simp only [checkInvariants_ok hok.toWin hok.head_le_end, ok_bind]
  rfl

/-- The write-back of `io300_seek` and `io300_close`. -/
theorem flushIfDirty_spec (h : Win C f) (hle : f.head ≤ f.cacheEnd) :
    ∃ g, flushIfDirty C .succeeding f = .ok g ∧
    g.os.data = f.contents ∧ g.cache = f.cache ∧ g.dirty = false ∧ g.fileSize = f.fileSize ∧
    g.direction = f.direction := by
  cases hd : f.dirty with
  | true =>
    refine ⟨flushed C f, ?_, rfl, rfl, rfl, rfl, rfl⟩
    rw [flushIfDirty, if_pos hd, io300Flush_eq h hle]; rfl
  | false =>
    refine ⟨f, ?_, (h.clean hd).symm, rfl, hd, rfl, rfl⟩
    rw [flushIfDirty, if_neg (by simp [hd])]

/-- The window that `io300_seek` loads. -/
theorem seekLoad_spec (f : Io300File Os) (hC : f.cache.length = C) (hd : f.direction = 1)
    (hs : f.cacheStart = f.head) (he : f.cacheEnd = f.head) (hoff : f.os.offset = f.head)
    (hdirty : f.dirty = false) :
    ∃ g, seekLoad C .succeeding f = .ok (toInt f.head, g) ∧ Ok C g ∧ g.contents = f.os.data ∧
      g.head = f.head ∧ g.fileSize = max f.fileSize f.head ∧ g.dirty = false ∧ g.Valid ∧
      g.os.data = f.os.data := by
  by_cases hF : (f.head : ℤ) > f.fileSize
  · -- seek beyond eof: the window stays empty
    have hg : { f with fileSize := f.head } = load { f with fileSize := f.head } 0 := by
      simp [load, slice, hs, he, hdirty]
    refine ⟨{ f with fileSize := f.head }, by rw [seekLoad, if_pos hF], ?_, ?_, rfl, ?_, hdirty, ?_,
      rfl⟩
    · rw [hg]
      exact load_ok { f with fileSize := f.head } hC hd (Nat.zero_le C) (Or.inr (by simp))
    · rw [hg, contents_load]
    · simp only; omega
    · rw [hg]; exact load_valid
  · obtain ⟨n, hn, hnC, hnF⟩ : ∃ n, n = (if (f.head : ℤ) + C > f.fileSize then
        (f.fileSize - f.head).toNat else C) ∧ n ≤ C ∧ (n = C ∨ f.fileSize ≤ f.head + n) := by
      refine ⟨_, rfl, ?_, ?_⟩ <;> split_ifs <;> omega
    set os : Os := { f.os with
      offset := f.head + (slice f.os.data f.head n).length, calls := f.os.calls + 1 } with hos
    refine ⟨load { f with os := os } n, ?_, load_ok { f with os := os } hC hd hnC hnF, ?_, rfl,
      ?_, rfl, load_valid, rfl⟩
    · have hread : read .succeeding f.os n = (some (slice f.os.data f.head n), os) := by
        simp only [read, Sys.succeeding, Outcome.cut, hoff, hos]
      have hput : putCache C { f with os := os } 0 (slice f.os.data f.head n) =
          .ok { f with os := os, cache := store 0 f.cache 0 (slice f.os.data f.head n) } := by
        rw [putCache, if_pos (by rw [length_slice]; omega)]
      rw [seekLoad, if_neg hF]
      simp only [← hn, hread]
      rw [hput, ok_bind]
      simp only [load, hs, hdirty, hos]
      rfl
    · rw [contents_load]
    · simp only [load]; omega

/-- **A seek to a non-negative offset** moves the head and leaves the file; the cached size
    grows to the head. -/
theorem io300Seek_spec (h : Win C f) (hle : f.head ≤ f.cacheEnd) {pos : ℤ} (hpos : 0 ≤ pos) :
    ∃ g, io300Seek C .succeeding f pos = .ok (toInt pos, g) ∧ Ok C g ∧ g.contents = f.contents ∧
      g.head = pos.toNat ∧ g.fileSize = max f.fileSize pos ∧ g.dirty = false ∧ g.Valid ∧
      g.os.data = f.contents := by
  obtain ⟨f', hf', hdata, hcache, hdirty, hsize, hdir⟩ := flushIfDirty_spec h hle
  have hne : ¬ (pos < 0 ∨ Sys.succeeding.outcome .lseek f'.os.calls = .fail) := by
    simp [Sys.succeeding]; omega
  obtain ⟨g, hg, hok, hcont, hhead, hF, hd, hv, hos⟩ := seekLoad_spec (C := C)
    { f' with
      os := { f'.os with offset := pos.toNat, calls := f'.os.calls + 1 }
      head := pos.toNat, cacheStart := pos.toNat, cacheEnd := pos.toNat }
    (by rw [hcache, h.cache_len]) (hdir.trans h.dir) rfl rfl rfl hdirty
  simp only [Int.toNat_of_nonneg hpos] at hg hF
  refine ⟨g, ?_, hok, hcont.trans hdata, hhead, hF.trans (by rw [hsize]), hd, hv, hos.trans hdata⟩
  rw [io300Seek, checkInvariants_ok h hle, ok_bind, hf', ok_bind, lseek, if_neg hne]
  simp only [if_neg (show ¬ pos = -1 by omega)]
  exact hg

/-- **Closing writes the file back.** -/
theorem io300Close_spec (h : Win C f) (hle : f.head ≤ f.cacheEnd) :
    ∃ g, io300Close C .succeeding f = .ok (0, g) ∧ g.os.data = f.contents := by
  obtain ⟨f', hf', hdata, -⟩ := flushIfDirty_spec h hle
  refine ⟨{ f' with os := { f'.os with calls := f'.os.calls + 1 } }, ?_, hdata⟩
  rw [io300Close, checkInvariants_ok h hle, ok_bind, hf', ok_bind]
  rfl

/-! ## Reading -/

theorem getCache_eq (h : Win C f) {n : ℕ} (hn : f.head + n ≤ f.cacheEnd) :
    getCache C f (f.head - f.cacheStart) n = .ok (slice f.cache (f.head - f.cacheStart) n) := by
  have h1 := h.end_le
  have h2 := h.start_le
  rw [getCache, if_pos (by omega)]

theorem readcByte_spec (h : Ok C f) (hlt : f.head < f.cacheEnd) :
    ∃ b g, readcByte C f = .ok ((b.toNat : ℤ), g) ∧ Reads C f g [b] := by
  have h1 := h.end_le
  have h2 := h.start_le
  have h3 := h.cache_len
  have hlen : (slice f.cache (f.head - f.cacheStart) 1).length = 1 := by rw [length_slice]; omega
  obtain ⟨b, hb⟩ := List.length_eq_one_iff.1 hlen
  refine ⟨b, { f with head := f.head + 1 }, ?_, ?_⟩
  · rw [readcByte, getCache_eq h.toWin hlt, ok_bind, hb]; rfl
  · rw [← hb]; exact reads_advance h hlt

/-- Past the cached size, `io300_readc` reports the end of the file. -/
theorem io300Readc_past (h : Win C f) (hle : f.head ≤ f.cacheEnd) (hF : f.fileSize < f.head) :
    io300Readc C .succeeding f = .ok (-1, f) := by
  rw [io300Readc, checkInvariants_ok h hle, ok_bind, if_pos hF]; rfl

/-- **Reading a byte**, up to the cached size: a byte of the window, or the end of the file after
    a refill that found nothing. -/
theorem io300Readc_spec (hC : 0 < C) (h : Ok C f) (hF : (f.head : ℤ) ≤ f.fileSize) :
    (∃ b g, io300Readc C .succeeding f = .ok ((b.toNat : ℤ), g) ∧ Reads C f g [b]) ∨
    (∃ g, io300Readc C .succeeding f = .ok (-1, g) ∧ Reads C f g [] ∧
      f.contents.length ≤ f.head ∧ f.head = f.cacheEnd) := by
  rw [io300Readc, checkInvariants_ok h.toWin h.head_le_end, ok_bind, if_neg (by omega)]
  by_cases he : f.head = f.cacheEnd
  · obtain ⟨calls, hfetch⟩ := io300Fetch_eq h.toWin he
    rw [if_pos he, hfetch, ok_bind]
    simp only [show ¬ (0 : ℤ) = -1 by decide, if_false, fetched_head_eq hC]
    by_cases hend : f.contents.length ≤ f.head
    · exact Or.inr ⟨_, by rw [if_pos hend]; rfl, reads_fetched h, hend, he⟩
    · have hr : Reads C f (fetched C f calls) [] := reads_fetched h
      have hlt : (fetched C f calls).head < (fetched C f calls).cacheEnd :=
        lt_of_le_of_ne hr.ok.head_le_end fun heq => hend ((fetched_head_eq hC).1 heq)
      obtain ⟨b, g, hg, hb⟩ := readcByte_spec hr.ok hlt
      exact Or.inl ⟨b, g, by rw [if_neg hend]; exact hg, hr.trans hb⟩
  · rw [if_neg he]
    exact Or.inl (readcByte_spec h (lt_of_le_of_ne h.head_le_end he))

theorem readCopy_eq (h : Win C f) (hle : f.head ≤ f.cacheEnd) (sz : ℕ) (buff : List UInt8) :
    readCopy C f sz buff =
      .ok ({ f with head := f.head + min (f.cacheEnd - f.head) (sz - buff.length) },
        buff ++ slice f.cache (f.head - f.cacheStart)
          (min (f.cacheEnd - f.head) (sz - buff.length))) := by
  rw [readCopy]
  simp only [if_neg (Nat.not_lt.2 hle)]
  rw [getCache_eq h (by omega), ok_bind]
  rfl

theorem readCopy_spec (h : Ok C f) (hlt : f.head < f.cacheEnd) {sz : ℕ} {buff : List UInt8}
    (hsz : buff.length < sz) :
    ∃ bs g, readCopy C f sz buff = .ok (g, buff ++ bs) ∧ Reads C f g bs ∧ bs ≠ [] ∧
      buff.length + bs.length ≤ sz := by
  have h1 := h.end_le
  have h2 := h.start_le
  have h3 := h.cache_len
  set n := min (f.cacheEnd - f.head) (sz - buff.length) with hn
  have hlen : (slice f.cache (f.head - f.cacheStart) n).length = n := by rw [length_slice]; omega
  exact ⟨slice f.cache (f.head - f.cacheStart) n, { f with head := f.head + n },
    readCopy_eq h.toWin hlt.le sz buff, reads_advance h (by omega),
    List.ne_nil_of_length_pos (by omega), by omega⟩

/-- **The loop of `io300_read`** ends, after at most as many iterations as bytes are asked for,
    with all the bytes or at the end of the file. -/
theorem io300ReadLoop_spec (hC : 0 < C) (sz : ℕ) :
    ∀ (fuel : ℕ) (f : Io300File Os) (buff : List UInt8), sz - buff.length < fuel → buff.length ≤ sz →
      Ok C f → ∃ g bs, io300ReadLoop C .succeeding fuel f sz buff = .ok (g, buff ++ bs) ∧
        Reads C f g bs ∧ buff.length + bs.length ≤ sz ∧
        (buff.length + bs.length < sz → g.contents.length ≤ g.head ∧ g.head = g.cacheEnd) ∧
        (f.head < f.cacheEnd → buff.length < sz → bs ≠ [])
  | 0, _, _, hfuel, _, _ => by omega
  | fuel + 1, f, buff, hfuel, hle, h => by
    rw [io300ReadLoop]
    by_cases hsz : buff.length < sz
    swap
    · exact ⟨f, [], by simp [hsz], .refl h, by simpa using hle, by simp; omega, by omega⟩
    -- one round of copying from a handle `k` with bytes in its window, then the rest
    have hround : ∀ k : Io300File Os, Reads C f k [] → k.head < k.cacheEnd → ∃ g bs,
        (readCopy C k sz buff >>= fun p => io300ReadLoop C .succeeding fuel p.1 sz p.2) =
          .ok (g, buff ++ bs) ∧ Reads C f g bs ∧ buff.length + bs.length ≤ sz ∧
        (buff.length + bs.length < sz → g.contents.length ≤ g.head ∧ g.head = g.cacheEnd) ∧
        bs ≠ [] := by
      intro k hk hlt
      obtain ⟨as, k', hcopy, hread, hne, hlen⟩ := readCopy_spec hk.ok hlt hsz
      have hpos := List.length_pos_of_ne_nil hne
      obtain ⟨g, bs, hloop, hrest, hmax, heof, -⟩ := io300ReadLoop_spec hC sz fuel k' (buff ++ as)
        (by rw [List.length_append]; omega) (by rw [List.length_append]; omega) hread.ok
      rw [List.length_append] at hmax heof
      refine ⟨g, as ++ bs, ?_, hk.trans (hread.trans hrest), ?_, fun hlt' => heof ?_, by simp [hne]⟩
      · rw [hcopy, ok_bind, hloop, List.append_assoc]
      · rw [List.length_append]; omega
      · rw [List.length_append] at hlt'; omega
    rw [if_pos hsz]
    by_cases he : f.head = f.cacheEnd
    · obtain ⟨calls, hfetch⟩ := io300Fetch_eq h.toWin he
      have hr : Reads C f (fetched C f calls) [] := reads_fetched h
      rw [if_pos he, hfetch, ok_bind]
      by_cases hend : (fetched C f calls).head = (fetched C f calls).cacheEnd
      · have hlen := (fetched_head_eq hC).1 hend
        refine ⟨fetched C f calls, [], ?_, hr, by simpa using hle, fun _ => ⟨?_, hend⟩, by omega⟩
        · simp only [hend, if_true, List.append_nil]; rfl
        · rw [contents_fetched]; exact hlen
      · obtain ⟨g, bs, hloop, hread, hmax, heof, hne⟩ :=
          hround _ hr (lt_of_le_of_ne hr.ok.head_le_end hend)
        refine ⟨g, bs, ?_, hread, hmax, heof, fun _ _ => hne⟩
        simp only [hend, if_false]
        exact hloop
    · obtain ⟨g, bs, hloop, hread, hmax, heof, hne⟩ :=
        hround f (.refl h) (lt_of_le_of_ne h.head_le_end he)
      refine ⟨g, bs, ?_, hread, hmax, heof, fun _ _ => hne⟩
      rw [if_neg he]
      exact hloop

theorem io300Read_past (h : Win C f) (hle : f.head ≤ f.cacheEnd) (hF : f.fileSize < f.head)
    (fuel sz : ℕ) :
    io300Read C .succeeding fuel f sz = .ok ((0, []), f) := by
  rw [io300Read, checkInvariants_ok h hle, ok_bind, if_pos hF]; rfl

/-- **Reading a block**, up to the cached size. -/
theorem io300Read_spec (hC : 0 < C) (h : Ok C f) (hF : (f.head : ℤ) ≤ f.fileSize) {fuel sz : ℕ}
    (hfuel : sz < fuel) : ∃ g bs,
      io300Read C .succeeding fuel f sz = .ok (((bs.length : ℤ), bs), g) ∧ Reads C f g bs ∧
      bs.length ≤ sz ∧ (f.Valid → bs = slice f.contents f.head sz) ∧
      (f.head < f.cacheEnd → 0 < sz → bs ≠ []) := by
  obtain ⟨g, bs, hloop, hread, hmax, heof, hne⟩ := io300ReadLoop_spec hC sz fuel f [] (by simpa)
    (Nat.zero_le _) h
  rw [List.nil_append] at hloop
  simp only [List.length_nil, Nat.zero_add] at hmax heof hne
  refine ⟨g, bs, ?_, hread, hmax, fun hv => ?_, hne⟩
  · rw [io300Read, checkInvariants_ok h.toWin h.head_le_end, ok_bind, if_neg (by omega), hloop]
    rfl
  · rw [hread.bytes hv]
    by_cases hlt : bs.length < sz
    · -- a short read stops at the end of the file
      have hend := (heof hlt).1
      have hlen := congrArg List.length (hread.bytes hv)
      rw [hread.contents (Or.inr hv), hread.head] at hend
      rw [length_slice] at hlen
      rw [← slice_min_length bs.length, ← slice_min_length sz]
      congr 1; omega
    · rw [show bs.length = sz by omega]

/-! ## Writing -/

/-- The handle `g` is `f` after the bytes `bs` have been stored at the head. -/
structure Writes (C : ℕ) (f g : Io300File Os) (bs : List UInt8) : Prop where
  ok : Ok C g
  head : g.head = f.head + bs.length
  fileSize : g.fileSize = f.fileSize
  contents : g.contents = store 0 f.contents f.head bs
  sized : Sized f → Sized g

theorem putCache_eq (h : Win C f) {bs : List UInt8} (hn : f.head + bs.length ≤ f.cacheStart + C) :
    putCache C f (f.head - f.cacheStart) bs =
      .ok { f with cache := store 0 f.cache (f.head - f.cacheStart) bs } := by
  have h1 := h.start_le
  rw [putCache, if_pos (by omega)]

/-- Storing in front of the cached size does not leave the window of a sized handle. -/
theorem sized_put (h : Mid C f) {bs : List UInt8} (hb : bs ≠ [])
    (hn : f.head + bs.length ≤ f.cacheStart + C) (hsize : f.fileSize ≤ f.os.data.length)
    (hv : (f.head : ℤ) < f.fileSize → f.head ≤ f.cacheEnd ∧ f.Valid) : Sized (f.put bs) := by
  have hpos := List.length_pos_of_ne_nil hb
  have h1 := h.cache_len
  have h2 : f.os.data.length ≤ f.contents.length := data_le_contents
  refine ⟨hsize, fun hF => ?_⟩
  have hF' : ((f.head + bs.length : ℕ) : ℤ) ≤ f.fileSize := hF
  obtain ⟨hle, hvalid⟩ := hv (by omega)
  have hle' : f.head + bs.length ≤ f.cacheEnd := by
    by_contra hgt
    rcases h.short (by omega) with h4 | h4 <;> omega
  exact ⟨hle', hvalid.put h.start_le (by omega) hle'⟩

/-- A flush at the end of the window leaves an empty window with room for a whole one behind it,
    which nothing reads. -/
theorem flushed_mid (h : Win C f) (he : f.head = f.cacheEnd)
    (hv : f.fileSize ≤ f.head ∨ f.contents.length ≤ f.head) : Mid C (flushed C f) := by
  refine ⟨⟨le_rfl, by simp [flushed], by simp [flushed]; omega, by simp [flushed]; omega,
    h.cache_len, h.dir, fun _ => contents_flushed⟩, fun hF hl => ?_, fun hs => ?_⟩
  · rw [contents_flushed] at hl
    simp only [flushed] at hF hl
    omega
  · simp only [flushed] at hs; omega

theorem writecByte_spec (h : Mid C f) (hlt : f.head < f.cacheEnd) (ch : ℤ) :
    ∃ g, writecByte C f ch = .ok (ch, g) ∧ Ok C g ∧ g.head = f.head + 1 ∧
      g.fileSize = f.fileSize ∧ g.contents = store 0 f.contents f.head [toChar ch] ∧
      (f.fileSize ≤ f.os.data.length → ((f.head : ℤ) < f.fileSize → f.Valid) → Sized g) := by
  have h1 := h.end_le
  have h2 := h.cache_len
  have hn : f.head + [toChar ch].length ≤ f.cacheStart + C := by simp; omega
  obtain ⟨hmid, hstrong⟩ := h.put (List.cons_ne_nil (toChar ch) []) hn
  refine ⟨f.put [toChar ch], ?_, ⟨hmid, hlt, by simp [put], fun hF hl => ?_⟩, rfl, rfl,
    contents_put h.start_le (by omega),
    fun hs hv => sized_put h (by simp) hn hs fun hF => ⟨hlt.le, hv hF⟩⟩
  · rw [writecByte, putCache_eq h.toWin hn, ok_bind]; rfl
  · exact hstrong (by exact_mod_cast hF) hl hlt

theorem Io300File.Ok.calls (h : Ok C f) (n : ℕ) : Ok C { f with os := { f.os with calls := n } } :=
  ⟨⟨⟨h.start_le, h.head_le, h.start_le_end, h.end_le, h.cache_len, h.dir, h.clean⟩, h.valid,
    h.short⟩, h.head_le_end, h.clean_valid, h.valid_le⟩

/-- **Writing a byte.** -/
theorem io300Writec_spec (hC : 0 < C) (h : Ok C f) (ch : ℤ) :
    ∃ g, io300Writec C .succeeding f ch = .ok (ch, g) ∧ Writes C f g [toChar ch] := by
  rw [io300Writec, checkInvariants_ok h.toWin h.head_le_end, ok_bind]
  by_cases he : f.head = f.cacheEnd
  · set k : Io300File Os := { f with os := { f.os with calls := f.os.calls + 1 } } with hk
    have hok : Ok C k := h.calls _
    have hcont : k.contents = f.contents := rfl
    rw [if_pos he, io300Filesize_eq h.toWin he.le, ok_bind]
    simp only
    by_cases hlt : (f.head : ℤ) < f.os.data.length
    · obtain ⟨calls, hfetch⟩ := io300Fetch_eq hok.toWin he
      have hr : Reads C k (fetched C k calls) [] := reads_fetched hok
      have hne : (fetched C k calls).head < (fetched C k calls).cacheEnd := by
        refine lt_of_le_of_ne hr.ok.head_le_end fun heq => ?_
        have h1 := (fetched_head_eq hC).1 heq
        have h2 : f.os.data.length ≤ f.contents.length := data_le_contents
        rw [hcont] at h1
        simp only [hk] at h1
        omega
      have hvalid := hr.ok.clean_valid rfl
      obtain ⟨g, hg, hgok, hhead, hF, hgcont, hsized⟩ := writecByte_spec hr.ok.toMid hne ch
      refine ⟨g, ?_, hgok, hhead, hF, ?_, fun hs => hsized ?_ fun _ => hvalid⟩
      · rw [if_pos hlt, hfetch, ok_bind]; exact hg
      · rw [hgcont, contents_fetched]; rfl
      · exact hs.size_le.trans (by exact_mod_cast hr.data)
    · have hend : k.contents.length ≤ k.head := by
        have := contents_le hok.toWin
        simp only [hk] at this ⊢
        omega
      obtain ⟨g, hg, hgok, hhead, hF, hgcont, hsized⟩ := writecByte_spec
        (flushed_mid hok.toWin he (Or.inr hend)) (by simp [flushed, hk]; omega) ch
      have hdata : f.os.data.length ≤ f.contents.length := data_le_contents
      refine ⟨g, ?_, hgok, hhead, hF, ?_, fun hs => hsized ?_ fun hlt' => ?_⟩
      · rw [if_neg hlt, io300Flush_eq hok.toWin he.le, ok_bind]
        simp only [show ¬ (0 : ℤ) = -1 by decide, if_false]
        exact hg
      · rw [hgcont, contents_flushed]; rfl
      · exact hs.size_le.trans (by exact_mod_cast hdata)
      · have h1 := hs.size_le
        have h2 : (f.head : ℤ) < f.fileSize := hlt'
        omega
  · obtain ⟨g, hg, hgok, hhead, hF, hgcont, hsized⟩ := writecByte_spec h.toMid
      (lt_of_le_of_ne h.head_le_end he) ch
    refine ⟨g, ?_, hgok, hhead, hF, hgcont, fun hs => hsized hs.size_le fun hlt =>
      (hs.valid hlt.le).2⟩
    rw [if_neg he]; exact hg

end CProj.FileIO.Student
