/-
  What the caller of `student.c` sees of a handle.

  A `View` is the file the handle stands for, its position and the cached size; `View.call` answers
  a call from it alone.  `Loose` keeps of the invariant of a handle what does not speak of the bytes
  behind the head: it holds of every good handle of a session that stays in the file, and of one
  whose window a flush has moved without loading it.  A loose handle answers as its view does as
  long as the bytes that a read takes from the window are those of the file (`Fresh`).
-/
import CProj.FileIO.Sessions

namespace CProj.FileIO.Student

open Io300File

/-! ## The abstract handle -/

/-- The file, the position in it, and the size beyond which nothing is read. -/
@[ext]
structure View where
  contents : List UInt8
  head : ℕ
  fileSize : ℤ
  deriving DecidableEq, Repr

/-- A call, answered from the view. -/
def View.call (v : View) : Op → Reply × View
  | .seek pos => (⟨toInt pos, []⟩, { v with head := pos.toNat, fileSize := max v.fileSize pos })
  | .readc =>
    if v.fileSize < v.head then (⟨-1, []⟩, v)
    else match v.contents[v.head]? with
      | some b => (⟨b.toNat, []⟩, { v with head := v.head + 1 })
      | none => (⟨-1, []⟩, v)
  | .read sz =>
    if v.fileSize < v.head then (⟨0, []⟩, v)
    else
      let bs := slice v.contents v.head sz
      (⟨bs.length, bs⟩, { v with head := v.head + bs.length })
  | .writec ch =>
    (⟨ch, []⟩, { v with contents := store 0 v.contents v.head [toChar ch], head := v.head + 1 })
  | .write buff => (⟨buff.length, []⟩,
      { v with contents := store 0 v.contents v.head buff, head := v.head + buff.length })

/-- The call, if it seeks, stays in the file. -/
def View.InFile (v : View) : Op → Prop
  | .seek pos => 0 ≤ pos ∧ pos ≤ v.contents.length
  | _ => True

/-- The view of a handle. -/
def Io300File.view (f : Io300File Os) : View := ⟨f.contents, f.head, f.fileSize⟩

/-! ## Loose handles -/

variable {C : ℕ} {f g : Io300File Os}

/-- A handle between two calls, with anything behind the head. -/
structure Loose (C : ℕ) (f : Io300File Os) : Prop extends Win C f where
  head_le_end : f.head ≤ f.cacheEnd
  short : f.cacheEnd < f.cacheStart + C →
    f.fileSize ≤ f.cacheEnd ∨ f.contents.length ≤ f.cacheEnd
  size_le : f.fileSize ≤ f.os.data.length

theorem Sized.loose (hs : Sized f) (h : Ok C f) : Loose C f := by
  refine ⟨h.toWin, h.head_le_end, fun hlt => ?_, hs.size_le⟩
  have := h.head_le_end
  rcases h.short hlt with h1 | h1
  · exact Or.inl h1
  · right; omega

/-- The `n` bytes that a read takes from the window, as far as it goes, are those of the file. -/
def ReadsFresh (f : Io300File Os) (n : ℕ) : Prop :=
  (f.head : ℤ) ≤ f.fileSize →
    slice f.cache (f.head - f.cacheStart) (min n (f.cacheEnd - f.head)) =
      slice f.contents f.head (min n (f.cacheEnd - f.head))

/-- The call, if it reads, takes bytes of the file from the window. -/
def Fresh (f : Io300File Os) : Op → Prop
  | .readc => ReadsFresh f 1
  | .read sz => ReadsFresh f sz
  | _ => True

/-- A sized handle reads bytes of the file. -/
theorem Sized.fresh (hs : Sized f) (op : Op) : Fresh f op := by
  have hreads : ∀ n, ReadsFresh f n := fun n hF => (hs.valid hF).2.slice_eq (min_le_right _ _)
  cases op with
  | readc => exact hreads 1
  | read sz => exact hreads sz
  | _ => trivial

theorem contents_advance_fresh (h : Win C f) {n : ℕ} (hn : f.head + n ≤ f.cacheEnd)
    (hfresh : slice f.cache (f.head - f.cacheStart) n = slice f.contents f.head n) :
    { f with head := f.head + n }.contents = f.contents := by
  have h1 := h.end_le
  have h2 := h.cache_len
  rw [contents_advance h.start_le (by omega), hfresh, store_slice]

/-- Reading bytes of the file from the window keeps a handle loose. -/
theorem Loose.advance (h : Loose C f) {n : ℕ} (hn : f.head + n ≤ f.cacheEnd)
    (hfresh : slice f.cache (f.head - f.cacheStart) n = slice f.contents f.head n) :
    Loose C { f with head := f.head + n } := by
  have h1 := h.start_le
  have h2 := h.end_le
  have hcont := contents_advance_fresh h.toWin hn hfresh
  refine ⟨⟨by simp only; omega, by simp only; omega, h.start_le_end, h.end_le, h.cache_len, h.dir,
    fun hd => ?_⟩, hn, fun hlt => ?_, h.size_le⟩
  · rw [hcont]; exact h.clean hd
  · rw [hcont]; exact h.short hlt

theorem Sized.advance (hs : Sized f) (h : Win C f) {n : ℕ} (hn : f.head + n ≤ f.cacheEnd) :
    Sized { f with head := f.head + n } := by
  refine ⟨hs.size_le, fun hF => ⟨hn, ?_⟩⟩
  have hF' : ((f.head + n : ℕ) : ℤ) ≤ f.fileSize := hF
  exact (hs.valid (by omega)).2.advance h hn

/-- After a fetch the window holds bytes of the file. -/
theorem Loose.sized_fetched (h : Loose C f) {calls : ℕ} : Sized (fetched C f calls) := by
  have hok : Ok C (fetched C f calls) := fetched_ok h.cache_len h.dir
  have hdata : f.os.data.length ≤ f.contents.length := data_le_contents
  refine ⟨h.size_le.trans (by exact_mod_cast hdata),
    fun _ => ⟨hok.head_le_end, hok.clean_valid rfl⟩⟩

/-- The handle `g` follows `f` through a call that changes its view to `v`. -/
structure Follows (C : ℕ) (f g : Io300File Os) (v : View) : Prop where
  loose : Loose C g
  view : g.view = v
  sized : Sized f → Sized g

/-! ## Reading -/

/-- The byte of the file under the head, if the window and the file agree there. -/
theorem getElem?_of_slice {b : UInt8} (h : slice f.contents f.head 1 = [b]) :
    f.contents[f.head]? = some b := by
  have hb := congrArg (·[0]?) h
  simpa [getElem?_slice] using hb

theorem view_fetched {calls : ℕ} : (fetched C f calls).view = f.view := by
  simp only [view, contents_fetched]
  rfl

/-- The byte of a window that agrees with the file. -/
theorem Loose.readcByte (h : Loose C f) (hF : (f.head : ℤ) ≤ f.fileSize) (hlt : f.head < f.cacheEnd)
    (hfresh : slice f.cache (f.head - f.cacheStart) 1 = slice f.contents f.head 1) :
    ∃ g, Student.readcByte C f = .ok ((f.view.call .readc).1.ret, g) ∧
      Follows C f g (f.view.call .readc).2 ∧
      (f.view.call .readc).1.buff = [] := by
  have h1 := h.end_le
  have h2 := h.start_le
  have h3 := h.cache_len
  have hlen : (slice f.cache (f.head - f.cacheStart) 1).length = 1 := by rw [length_slice]; omega
  obtain ⟨b, hb⟩ := List.length_eq_one_iff.1 hlen
  have hbyte : f.contents[f.head]? = some b := getElem?_of_slice (hfresh.symm.trans hb)
  have hview : f.view.call .readc = (⟨b.toNat, []⟩, { f.view with head := f.head + 1 }) := by
    simp only [View.call, view, if_neg (not_lt.2 hF), hbyte]
  refine ⟨{ f with head := f.head + 1 }, ?_, ⟨h.advance hlt hfresh, ?_,
    fun hs => hs.advance h.toWin hlt⟩, by rw [hview]⟩
  · rw [Student.readcByte, getCache_eq h.toWin hlt, ok_bind, hb, hview]
    rfl
  · rw [hview]
    simp only [view, contents_advance_fresh h.toWin hlt hfresh]

/-- **Reading a byte.** -/
theorem Loose.readc (hC : 0 < C) (h : Loose C f) (hfresh : ReadsFresh f 1) (fuel : ℕ) :
    ∃ g, call C .succeeding fuel f .readc = .ok ((f.view.call .readc).1, g) ∧
      Follows C f g (f.view.call .readc).2 := by
  rcases lt_or_ge f.fileSize f.head with hF | hF
  · have hview : f.view.call .readc = (⟨-1, []⟩, f.view) := if_pos hF
    refine ⟨f, ?_, h, by rw [hview], id⟩
    rw [hview, call, io300Readc_past h.toWin h.head_le_end hF]
    rfl
  rw [call, io300Readc, checkInvariants_ok h.toWin h.head_le_end, ok_bind, if_neg (not_lt.2 hF)]
  by_cases he : f.head = f.cacheEnd
  · obtain ⟨calls, hfetch⟩ := io300Fetch_eq h.toWin he
    have hs : Sized (fetched C f calls) := h.sized_fetched
    have hok : Ok C (fetched C f calls) := fetched_ok h.cache_len h.dir
    rw [if_pos he, hfetch, ok_bind]
    simp only [show ¬ (0 : ℤ) = -1 by decide, if_false, fetched_head_eq hC]
    by_cases hend : f.contents.length ≤ f.head
    · have hview : f.view.call .readc = (⟨-1, []⟩, f.view) := by
        simp only [View.call, view, if_neg (not_lt.2 hF), List.getElem?_eq_none hend]
      rw [if_pos hend, hview]
      exact ⟨_, rfl, hs.loose hok, view_fetched, fun _ => hs⟩
    · have hlt : (fetched C f calls).head < (fetched C f calls).cacheEnd :=
        lt_of_le_of_ne hok.head_le_end fun heq => hend ((fetched_head_eq hC).1 heq)
      obtain ⟨g, hg, hfollows, hbuff⟩ := (hs.loose hok).readcByte hF hlt
        ((hok.clean_valid rfl).slice_eq (by omega))
      rw [view_fetched] at hg hfollows hbuff
      rw [if_neg hend, hg, ok_bind, ← hbuff]
      exact ⟨g, rfl, hfollows.loose, hfollows.view, fun _ => hfollows.sized hs⟩
  · have hlt : f.head < f.cacheEnd := lt_of_le_of_ne h.head_le_end he
    have heq := hfresh hF
    rw [min_eq_left (by omega)] at heq
    obtain ⟨g, hg, hfollows, hbuff⟩ := h.readcByte hF hlt heq
    rw [if_neg he, hg, ok_bind, ← hbuff]
    exact ⟨g, rfl, hfollows⟩

/-- At the end of its window a loose handle is a good one. -/
theorem Loose.ok (h : Loose C f) (he : f.head = f.cacheEnd) : Ok C f ∧ Sized f := by
  have hv : f.Valid := valid_of_head_eq he
  refine ⟨⟨⟨h.toWin, fun _ _ => hv, fun hlt => ?_⟩, h.head_le_end, fun _ => hv, fun _ _ => hv⟩,
    h.size_le, fun _ => ⟨he.le, hv⟩⟩
  rcases h.short hlt with h1 | h1
  · exact Or.inl h1
  · right; omega

/-- The loop of `io300_read` on a valid window. -/
theorem io300ReadLoop_valid (hC : 0 < C) (h : Ok C f) (hv : f.Valid) (fuel sz : ℕ)
    (buff : List UInt8)
    (hfuel : sz - buff.length < fuel) (hle : buff.length ≤ sz) :
    ∃ g, io300ReadLoop C .succeeding fuel f sz buff =
        .ok (g, buff ++ slice f.contents f.head (sz - buff.length)) ∧
      Reads C f g (slice f.contents f.head (sz - buff.length)) := by
  obtain ⟨g, bs, hloop, hread, hmax, heof, -⟩ := io300ReadLoop_spec hC sz fuel f buff hfuel hle h
  have hbs : bs = slice f.contents f.head (sz - buff.length) := by
    have hb := hread.bytes hv
    by_cases hlt : buff.length + bs.length < sz
    · -- a short read stops at the end of the file
      have hend := (heof hlt).1
      have hlen := congrArg List.length hb
      rw [hread.contents (Or.inr hv), hread.head] at hend
      rw [length_slice] at hlen
      rw [hb, ← slice_min_length bs.length, ← slice_min_length (sz - buff.length)]
      congr 1; omega
    · rw [hb]
      congr 1; omega
  rw [hbs] at hloop hread
  exact ⟨g, hloop, hread⟩

/-- A read from a good handle. -/
theorem Reads.follows {g : Io300File Os} {bs : List UInt8} (hr : Reads C f g bs) (hs : Sized f)
    (hv : f.Valid) : Follows C f g { f.view with head := f.head + bs.length } := by
  refine ⟨(hr.sized hs).loose hr.ok, ?_, fun _ => hr.sized hs⟩
  simp only [Io300File.view, hr.contents (Or.inr hv), hr.head, hr.fileSize]

/-- The loop of `io300_read` from inside the window: first the bytes of the window, then, if these
    are not enough, the rest from a good handle. -/
theorem Loose.readLoop_window (hC : 0 < C) (h : Loose C f) {fuel sz : ℕ} (hfuel : sz ≤ fuel)
    (hsz : 0 < sz) (hlt : f.head < f.cacheEnd)
    (heq : slice f.cache (f.head - f.cacheStart) (min (f.cacheEnd - f.head) sz) =
      slice f.contents f.head (min (f.cacheEnd - f.head) sz)) :
    ∃ g, io300ReadLoop C .succeeding (fuel + 1) f sz [] = .ok (g, slice f.contents f.head sz) ∧
      Follows C f g { f.view with head := f.head + (slice f.contents f.head sz).length } := by
  have h1 := h.start_le
  have h2 := h.end_le
  have h3 := h.cache_len
  set n := min (f.cacheEnd - f.head) sz with hn
  have hadv : Loose C { f with head := f.head + n } := h.advance (by omega) heq
  have hcont := contents_advance_fresh h.toWin (show f.head + n ≤ f.cacheEnd by omega) heq
  have hlen : (slice f.contents f.head n).length = n := by
    rw [← heq, length_slice]
    omega
  rw [io300ReadLoop, if_pos (by simpa using hsz), if_neg hlt.ne,
    readCopy_eq h.toWin h.head_le_end, ok_bind]
  simp only [List.length_nil, Nat.sub_zero, List.nil_append, ← hn, heq]
  by_cases hend : { f with head := f.head + n }.head = { f with head := f.head + n }.cacheEnd
  · obtain ⟨hok, hs⟩ := hadv.ok hend
    have hv : { f with head := f.head + n }.Valid := valid_of_head_eq hend
    obtain ⟨g, hg, hr⟩ := io300ReadLoop_valid hC hok hv fuel sz (slice f.contents f.head n)
      (by rw [hlen]; omega) (by rw [hlen]; omega)
    obtain ⟨hloose, hgview, hgs⟩ := hr.follows hs hv
    have hsplit : slice f.contents f.head sz = slice f.contents f.head n ++
        slice f.contents (f.head + n) (sz - n) := by
      rw [← slice_add]
      congr 1
      omega
    rw [hcont, hlen] at hg hgview
    rw [hsplit]
    refine ⟨g, hg, hloose, ?_, fun _ => hgs hs⟩
    rw [hgview, List.length_append, hlen]
    simp only [Io300File.view, hcont, Nat.add_assoc]
  · have hsz' : n = sz := by
      simp only at hend
      omega
    rw [hsz'] at hadv hcont hlen ⊢
    refine ⟨{ f with head := f.head + sz }, ?_, hadv, ?_, fun hs => hs.advance h.toWin (by omega)⟩
    · obtain ⟨fuel, rfl⟩ : ∃ n, fuel = n + 1 := ⟨fuel - 1, by omega⟩
      rw [io300ReadLoop, if_neg (by rw [hlen]; omega)]
    · rw [hlen]
      simp only [Io300File.view, hcont]

/-- The loop of `io300_read`. -/
theorem Loose.readLoop (hC : 0 < C) (h : Loose C f) {fuel sz : ℕ} (hfuel : sz < fuel)
    (hfresh : ReadsFresh f sz) (hF : (f.head : ℤ) ≤ f.fileSize) :
    ∃ g, io300ReadLoop C .succeeding fuel f sz [] = .ok (g, slice f.contents f.head sz) ∧
      Follows C f g { f.view with head := f.head + (slice f.contents f.head sz).length } := by
  by_cases he : f.head = f.cacheEnd
  · obtain ⟨hok, hs⟩ := h.ok he
    have hv : f.Valid := valid_of_head_eq he
    obtain ⟨g, hg, hr⟩ := io300ReadLoop_valid hC hok hv fuel sz [] (by simpa using hfuel)
      (Nat.zero_le _)
    exact ⟨g, hg, hr.follows hs hv⟩
  obtain ⟨fuel, rfl⟩ : ∃ n, fuel = n + 1 := ⟨fuel - 1, by omega⟩
  rcases Nat.eq_zero_or_pos sz with rfl | hsz
  · refine ⟨f, ?_, h, by simp [slice, Io300File.view], id⟩
    rw [io300ReadLoop]
    simp [slice]
  · have heq := hfresh hF
    rw [min_comm] at heq
    exact h.readLoop_window hC (Nat.le_of_lt_succ hfuel) hsz (lt_of_le_of_ne h.head_le_end he) heq

/-- **Reading a block.** -/
theorem Loose.read (hC : 0 < C) (h : Loose C f) {fuel sz : ℕ} (hfuel : sz < fuel)
    (hfresh : ReadsFresh f sz) :
    ∃ g, call C .succeeding fuel f (.read sz) = .ok ((f.view.call (.read sz)).1, g) ∧
      Follows C f g (f.view.call (.read sz)).2 := by
  rcases lt_or_ge f.fileSize f.head with hF | hF
  · have hview : f.view.call (.read sz) = (⟨0, []⟩, f.view) := if_pos hF
    refine ⟨f, ?_, h, by rw [hview], id⟩
    rw [hview, call, io300Read_past h.toWin h.head_le_end hF]
    rfl
  · have hview : f.view.call (.read sz) = (⟨(slice f.contents f.head sz).length,
        slice f.contents f.head sz⟩,
        { f.view with head := f.head + (slice f.contents f.head sz).length }) := if_neg (not_lt.2 hF)
    obtain ⟨g, hg, hfollows⟩ := h.readLoop hC hfuel hfresh hF
    refine ⟨g, ?_, by rw [hview]; exact hfollows⟩
    rw [call, io300Read, checkInvariants_ok h.toWin h.head_le_end, ok_bind, if_neg (not_lt.2 hF),
      hg, hview]
    rfl

/-! ## Writing -/

theorem Loose.windowsFull (h : Loose C f) (n : ℕ) : WindowsFull C f n := by
  intro k hk hn hF
  have h1 := h.size_le
  have h2 : f.os.data.length ≤ f.contents.length := data_le_contents
  have h3 := h.end_le
  split_ifs with hk1
  · subst hk1
    by_contra hne
    rcases h.short (by omega) with h4 | h4 <;> omega
  · omega

section
variable {bs : List UInt8}

/-- The shape of the window after bytes have been stored at the head. -/
theorem Loose.win_put (h : Loose C f) (hn : f.head + bs.length ≤ f.cacheStart + C) :
    Win C (f.put bs) := by
  have h1 := h.start_le
  have h2 := h.cache_len
  refine ⟨by simp only [put]; omega, hn, h.start_le_end, h.end_le, ?_, h.dir, by simp [put]⟩
  rw [length_cache_put h1 (by omega)]
  exact h2

theorem Loose.contents_put (h : Loose C f) (hn : f.head + bs.length ≤ f.cacheStart + C) :
    (f.put bs).contents = store 0 f.contents f.head bs := by
  have h1 := h.cache_len
  exact Io300File.contents_put h.start_le (by omega)

theorem Loose.short_put (h : Loose C f) (hn : f.head + bs.length ≤ f.cacheStart + C)
    (hlt : f.cacheEnd < f.cacheStart + C) :
    f.fileSize ≤ f.cacheEnd ∨ (f.put bs).contents.length ≤ max f.cacheEnd (f.head + bs.length) := by
  rcases h.short hlt with h1 | h1
  · exact Or.inl h1
  · right
    rw [h.contents_put hn]
    refine length_store_le.trans ?_
    omega

/-- Below the cached size the stored bytes do not leave the window. -/
theorem Loose.sized_put (h : Loose C f) (hn : f.head + bs.length ≤ f.cacheStart + C)
    (hs : Sized f) :
    Sized (f.put bs) := by
  have h1 := h.size_le
  have h2 : f.os.data.length ≤ f.contents.length := data_le_contents
  have h3 := h.cache_len
  refine ⟨h1, fun hF => ?_⟩
  have hF' : ((f.head + bs.length : ℕ) : ℤ) ≤ f.fileSize := hF
  have hle : f.head + bs.length ≤ f.cacheEnd := by
    by_contra hgt
    rcases h.short (by omega) with h4 | h4 <;> omega
  exact ⟨hle, (hs.valid (by omega)).2.put h.start_le (by omega) hle⟩

/-- Storing bytes at the head keeps a handle loose, once the end of the window is behind the
    head. -/
theorem Loose.put (h : Loose C f) (hn : f.head + bs.length ≤ f.cacheStart + C) :
    Follows C f (bump C (f.put bs))
      { f.view with contents := store 0 f.contents f.head bs, head := f.head + bs.length } := by
  have hwin := h.win_put hn
  have hview : (f.put bs).view =
      { f.view with contents := store 0 f.contents f.head bs, head := f.head + bs.length } := by
    simp only [Io300File.view, h.contents_put hn]
    rfl
  have hsized : Sized f → Sized (bump C (f.put bs)) := fun hs => (h.sized_put hn hs).bump
  unfold bump at hsized ⊢
  split_ifs at hsized ⊢ with hlt
  · exact ⟨⟨⟨hwin.start_le, hwin.head_le, Nat.le_add_right _ _, le_rfl, hwin.cache_len, hwin.dir,
      hwin.clean⟩, hwin.head_le, fun hs => absurd hs (lt_irrefl _), h.size_le⟩, hview, hsized⟩
  · refine ⟨⟨hwin, not_lt.1 hlt, fun hs => ?_, h.size_le⟩, hview, hsized⟩
    have hle : f.head + bs.length ≤ f.cacheEnd := not_lt.1 hlt
    rcases h.short_put hn hs with h1 | h1
    · exact Or.inl h1
    · rw [max_eq_left hle] at h1
      exact Or.inr h1

/-- A window that the stored bytes fill is as good as a valid one. -/
theorem Loose.loop_put (h : Loose C f) (hn : f.head + bs.length = f.cacheStart + C) :
    Loop C (f.put bs) ∧ Sized (f.put bs) := by
  have hwin := h.win_put hn.le
  have hend := h.end_le
  have hv : (f.put bs).Valid := by
    have h0 : (f.put bs).cacheEnd - (f.put bs).head = 0 := by simp only [Io300File.put]; omega
    rw [Valid, h0]
    simp [slice]
  refine ⟨⟨⟨hwin, fun _ _ => hv, h.short_put hn.le⟩, fun _ _ _ => hv, fun hd => ?_⟩, h.size_le,
    fun hF => ⟨?_, hv⟩⟩
  · simp [Io300File.put] at hd
  · have h1 := h.size_le
    have h2 : f.os.data.length ≤ f.contents.length := data_le_contents
    have hF' : ((f.head + bs.length : ℕ) : ℤ) ≤ f.fileSize := hF
    have hle : f.head + bs.length ≤ f.cacheEnd := by
      by_contra hgt
      rcases h.short (by omega) with h3 | h3 <;> omega
    exact hle

end

/-- What a write leaves, if it ends with a good handle. -/
theorem Writes.follows {bs : List UInt8} (hw : Writes C f g bs) (hs : Sized f) : Follows C f g
    { f.view with contents := store 0 f.contents f.head bs, head := f.head + bs.length } := by
  refine ⟨(hw.sized hs).loose hw.ok, ?_, hw.sized⟩
  simp only [Io300File.view, hw.contents, hw.head, hw.fileSize]

/-- **Writing a byte.** -/
theorem Loose.writec (hC : 0 < C) (h : Loose C f) (fuel : ℕ) (ch : ℤ) :
    ∃ g, call C .succeeding fuel f (.writec ch) = .ok ((f.view.call (.writec ch)).1, g) ∧
      Follows C f g (f.view.call (.writec ch)).2 := by
  by_cases he : f.head = f.cacheEnd
  · obtain ⟨hok, hs⟩ := h.ok he
    obtain ⟨g, hg, hw⟩ := io300Writec_spec hC hok ch
    exact ⟨g, by rw [call, hg]; rfl, hw.follows hs⟩
  · have h1 := h.end_le
    have h2 := h.head_le_end
    have hn : f.head + [toChar ch].length ≤ f.cacheStart + C := by simp; omega
    have hbump : bump C (f.put [toChar ch]) = f.put [toChar ch] := by
      refine if_neg (not_lt.2 ?_)
      simp only [Io300File.put, List.length_singleton]
      omega
    have hput := h.put hn
    rw [hbump] at hput
    refine ⟨f.put [toChar ch], ?_, hput⟩
    rw [call, io300Writec, checkInvariants_ok h.toWin h.head_le_end, ok_bind, if_neg he, writecByte,
      putCache_eq h.toWin hn, ok_bind]
    rfl

/-- **Writing a block.** -/
theorem Loose.write (hC : 0 < C) (h : Loose C f) {fuel : ℕ} {buff : List UInt8}
    (hfuel : buff.length < fuel) :
    ∃ g, call C .succeeding fuel f (.write buff) = .ok ((f.view.call (.write buff)).1, g) ∧
      Follows C f g (f.view.call (.write buff)).2 := by
  by_cases he : f.head = f.cacheStart + C
  · have h1 := h.end_le
    have h2 := h.head_le_end
    obtain ⟨hok, hs⟩ := h.ok (by omega)
    obtain ⟨g, hg, hw⟩ := io300Write_spec hC hok (h.windowsFull _) hfuel
    exact ⟨g, by rw [call, hg]; rfl, hw.follows hs⟩
  -- it is enough to follow the loop
  suffices hloop : ∃ g, io300WriteLoop C .succeeding fuel f buff = .ok (true, g) ∧
      Follows C f (bump C g)
        { f.view with contents := store 0 f.contents f.head buff, head := f.head + buff.length } by
    obtain ⟨g, hg, hfollows⟩ := hloop
    refine ⟨bump C g, ?_, hfollows⟩
    rw [call, io300Write, checkInvariants_ok h.toWin h.head_le_end, ok_bind, hg, ok_bind]
    rfl
  obtain ⟨fuel, rfl⟩ : ∃ n, fuel = n + 1 := ⟨fuel - 1, by omega⟩
  rw [io300WriteLoop]
  by_cases hb : buff = []
  · subst hb
    have hbump : bump C f = f := if_neg (not_lt.2 h.head_le_end)
    exact ⟨f, rfl, by rw [hbump]; exact ⟨h, rfl, id⟩⟩
  have hroom : f.head < f.cacheStart + C := lt_of_le_of_ne h.head_le he
  obtain ⟨bs, rest, rfl, hne, hcopy, hfit, hfull⟩ := writeCopy_eq h.toWin hroom hb
  have hpos := List.length_pos_of_ne_nil hne
  rw [List.length_append] at hfuel
  have hrefill : writeRefill C .succeeding f = .ok (true, f) := by rw [writeRefill, if_neg he]; rfl
  rw [if_neg hb, hrefill, ok_bind]
  simp only [if_true, hcopy, ok_bind]
  by_cases hrest : rest = []
  · subst hrest
    obtain ⟨fuel, rfl⟩ : ∃ n, fuel = n + 1 := ⟨fuel - 1, by omega⟩
    exact ⟨f.put bs, by rw [io300WriteLoop, if_pos rfl], by rw [List.append_nil]; exact h.put hfit⟩
  · -- the window is full
    obtain ⟨hloop, hs⟩ := h.loop_put (hfull hrest)
    have hw : WindowsFull C (f.put bs) rest.length := windowsFull_put.2 (h.windowsFull _)
    obtain ⟨g, hg, hgloop, hcont, hhead, hF, hsized⟩ := io300WriteLoop_spec hC fuel (f.put bs) rest
      (by omega) hloop hw
    refine ⟨g, hg, (hsized hs).bump.loose hgloop.bump_ok, ?_, fun _ => (hsized hs).bump⟩
    have hstore : store 0 (store 0 f.contents f.head bs) (f.head + bs.length) rest =
        store 0 f.contents f.head (bs ++ rest) := store_store rest
    simp only [Io300File.view, contents_bump, bump_head, bump_fileSize, hcont, hhead, hF,
      h.contents_put hfit, List.length_append]
    rw [← hstore, ← Nat.add_assoc]
    rfl

/-! ## Every call -/

theorem Loose.seek (h : Loose C f) (fuel : ℕ) {pos : ℤ} (hin : f.view.InFile (.seek pos)) :
    ∃ g, call C .succeeding fuel f (.seek pos) = .ok ((f.view.call (.seek pos)).1, g) ∧
      Follows C f g (f.view.call (.seek pos)).2 := by
  obtain ⟨g, hg, hok, hcont, hhead, hF, -, hv, hdata⟩ := io300Seek_spec h.toWin h.head_le_end hin.1
  have hle : pos ≤ f.contents.length := hin.2
  have h1 := h.size_le
  have h2 : f.os.data.length ≤ f.contents.length := data_le_contents
  have hs : Sized g := ⟨by rw [hF, hdata]; omega, fun _ => ⟨hok.head_le_end, hv⟩⟩
  refine ⟨g, by rw [call, hg]; rfl, hs.loose hok, ?_, fun _ => hs⟩
  simp only [Io300File.view, hcont, hhead, hF]
  rfl

/-- **A loose handle answers as its view does**, unless a read takes other bytes from the
    window. -/
theorem Loose.call (hC : 0 < C) (h : Loose C f) {fuel : ℕ} {op : Op} (hin : f.view.InFile op)
    (hfresh : Fresh f op) (hfuel : op.size < fuel) :
    ∃ g, Student.call C .succeeding fuel f op = .ok ((f.view.call op).1, g) ∧
      Follows C f g (f.view.call op).2 := by
  cases op with
  | seek pos => exact h.seek fuel hin
  | readc => exact h.readc hC hfresh fuel
  | read sz => exact h.read hC hfuel hfresh
  | writec ch => exact h.writec hC fuel ch
  | write buff => exact h.write hC hfuel

/-! ## Reads that take other bytes -/

theorem io300ReadLoop_returns {sys : Sys} {sz : ℕ} :
    ∀ (fuel : ℕ) (f : Io300File Os) (buff : List UInt8)
    {g : Io300File Os} {out : List UInt8}, io300ReadLoop C sys.device fuel f sz buff = .ok (g, out) →
      buff <+: out
  | 0, _, _, _, _, h => by cases h
  | fuel + 1, f, buff, g, out, h => by
    have hround : ∀ k, (readCopy C k sz buff >>= fun p => io300ReadLoop C sys.device fuel p.1 sz p.2) =
        .ok (g, out) → buff <+: out := by
      intro k hk
      obtain ⟨⟨k', buff'⟩, hcopy, hloop⟩ := bind_eq_ok.1 hk
      obtain ⟨bs, -, hbs⟩ := bind_eq_ok.1 hcopy
      cases hbs
      exact (List.prefix_append buff bs).trans (io300ReadLoop_returns fuel _ _ hloop)
    rw [io300ReadLoop] at h
    split_ifs at h with hsz he
    · obtain ⟨⟨r, k⟩, -, h⟩ := bind_eq_ok.1 h
      simp only at h
      split_ifs at h with hend
      · cases h
        exact List.prefix_rfl
      · exact hround k h
    · exact hround f h
    · cases h
      exact List.prefix_rfl

/-- **A read that is answered from the view** takes bytes of the file from the window. -/
theorem Loose.fresh_of_call (h : Loose C f) {fuel : ℕ} {op : Op}
    (hcall : Student.call C .succeeding fuel f op = .ok ((f.view.call op).1, g)) : Fresh f op := by
  have h1 := h.start_le
  have h2 := h.end_le
  have h3 := h.cache_len
  have hpast : (f.head : ℤ) ≤ f.fileSize → ¬ f.view.fileSize < f.view.head := fun hF => not_lt.2 hF
  cases op with
  | readc =>
    intro hF
    by_cases he : f.head = f.cacheEnd
    · simp [he, slice]
    have hlt : f.head < f.cacheEnd := lt_of_le_of_ne h.head_le_end he
    have hlen : (slice f.cache (f.head - f.cacheStart) 1).length = 1 := by rw [length_slice]; omega
    obtain ⟨b, hb⟩ := List.length_eq_one_iff.1 hlen
    rw [min_eq_left (by omega), hb]
    rw [Student.call, io300Readc, checkInvariants_ok h.toWin h.head_le_end, ok_bind,
      if_neg (not_lt.2 hF), if_neg he, Student.readcByte, getCache_eq h.toWin hlt, ok_bind,
        hb] at hcall
    have hret : (b.toNat : ℤ) = (f.view.call .readc).1.ret :=
      congrArg (fun p : Reply × Io300File Os => p.1.ret) (Except.ok.inj hcall)
    rw [View.call, if_neg (hpast hF)] at hret
    simp only [view] at hret
    cases hbyte : f.contents[f.head]? with
    | none =>
      rw [hbyte] at hret
      simp only at hret
      omega
    | some b' =>
      rw [hbyte] at hret
      simp only at hret
      have hbb : b = b' := UInt8.toNat_inj.1 (by exact_mod_cast hret)
      obtain ⟨hi, hbi⟩ := List.getElem?_eq_some_iff.1 hbyte
      rw [slice, List.drop_eq_getElem_cons hi, List.take_succ_cons, List.take_zero, hbi, hbb]
  | read sz =>
    intro hF
    by_cases he : f.head = f.cacheEnd
    · simp [he, slice]
    by_cases hsz : sz = 0
    · simp [hsz, slice]
    have hlt : f.head < f.cacheEnd := lt_of_le_of_ne h.head_le_end he
    rw [Student.call, io300Read, checkInvariants_ok h.toWin h.head_le_end, ok_bind,
      if_neg (not_lt.2 hF)] at hcall
    obtain ⟨⟨⟨r, buff⟩, k⟩, hread, hk⟩ := bind_eq_ok.1 hcall
    obtain ⟨⟨k', buff'⟩, hloop, hk'⟩ := bind_eq_ok.1 hread
    obtain rfl : buff' = buff := congrArg (fun p : (ℤ × List UInt8) × Io300File Os => p.1.2)
      (Except.ok.inj hk')
    have hbuff : buff' = slice f.contents f.head sz := by
      have hview := congrArg (fun p : Reply × Io300File Os => p.1.buff) (Except.ok.inj hk)
      rw [View.call, if_neg (hpast hF)] at hview
      exact hview
    cases fuel with
    | zero => cases hloop
    | succ fuel =>
      rw [io300ReadLoop, if_pos (by simp; omega), if_neg he, readCopy_eq h.toWin h.head_le_end,
        ok_bind] at hloop
      have hpre := io300ReadLoop_returns fuel _ _ hloop
      simp only [List.nil_append, List.length_nil, Nat.sub_zero] at hpre
      have htake := List.prefix_iff_eq_take.1 hpre
      have hn : min (min (f.cacheEnd - f.head) sz) (f.cache.length - (f.head - f.cacheStart)) =
          min (f.cacheEnd - f.head) sz := by omega
      rw [length_slice, hn, hbuff] at htake
      rw [min_comm sz, htake, slice, slice, List.take_take, min_eq_left (min_le_right _ _)]
  | _ => trivial

/-! ## Runs -/

/-- The answers to a list of calls, and the view after them. -/
def View.calls (v : View) : List Op → List Reply × View
  | [] => ([], v)
  | op :: ops => ((v.call op).1 :: ((v.call op).2.calls ops).1, ((v.call op).2.calls ops).2)

/-- All seeks stay in the file. -/
def View.StaysIn (v : View) : List Op → Prop
  | [] => True
  | op :: ops => v.InFile op ∧ (v.call op).2.StaysIn ops

/-- The handle after a call. -/
def Io300File.after (C fuel : ℕ) (f : Io300File Os) (op : Op) : Except Abort (Io300File Os) :=
  (Student.call C .succeeding fuel f op).map Prod.snd

/-- The calls, followed by `io300_close`, are answered from the view. -/
def Answers (C fuel : ℕ) (f : Io300File Os) (ops : List Op) : Prop :=
  ∃ g, outputs (Student.call C .succeeding fuel) f ops = .ok ((f.view.calls ops).1, g) ∧
    closed C g = .ok (f.view.calls ops).2.contents

theorem after_eq {fuel : ℕ} {op : Op} {r : Reply}
    (h : Student.call C .succeeding fuel f op = .ok (r, g)) : f.after C fuel op = .ok g := by
  rw [Io300File.after, h]
  rfl

/-- **A loose handle answers from its view exactly if no read takes other bytes from the window.** -/
theorem Loose.answers_iff (hC : 0 < C) {fuel : ℕ} {ops : List Op} (h : Loose C f)
    (hin : f.view.StaysIn ops) (hfuel : ∀ op ∈ ops, op.size < fuel) :
    Answers C fuel f ops ↔ Meets (Io300File.after C fuel) Fresh f ops := by
  induction ops generalizing f with
  | nil =>
    refine iff_of_true ⟨f, rfl, ?_⟩ trivial
    rw [closed_eq h.toWin h.head_le_end]
    rfl
  | cons op ops ih =>
    obtain ⟨hin, hrest⟩ := hin
    have hop := hfuel op List.mem_cons_self
    have hops : ∀ op ∈ ops, op.size < fuel := fun o ho => hfuel o (List.mem_cons_of_mem _ ho)
    constructor
    · rintro ⟨k, hout, hclose⟩
      obtain ⟨r, g, rs, hcall, hout, hrs⟩ := outputs_cons.1 hout
      obtain ⟨rfl, rfl⟩ := List.cons_eq_cons.1 hrs.symm
      have hfresh := h.fresh_of_call hcall
      obtain ⟨g', hcall', hfollows⟩ := h.call hC hin hfresh hop
      cases hcall.symm.trans hcall'
      refine ⟨hfresh, fun g' hg' => ?_⟩
      cases (after_eq hcall).symm.trans hg'
      rw [View.calls] at hclose
      rw [← hfollows.view] at hout hclose hrest
      exact (ih hfollows.loose hrest hops).1 ⟨k, hout, hclose⟩
    · rintro ⟨hfresh, hmeets⟩
      obtain ⟨g, hcall, hfollows⟩ := h.call hC hin hfresh hop
      rw [← hfollows.view] at hrest
      obtain ⟨k, hout, hclose⟩ := (ih hfollows.loose hrest hops).2 (hmeets g (after_eq hcall))
      rw [hfollows.view] at hout hclose
      exact ⟨k, outputs_cons.2 ⟨_, g, _, hcall, hout, rfl⟩, hclose⟩

/-- **A sized one always does.** -/
theorem Loose.answers (hC : 0 < C) {fuel : ℕ} {ops : List Op} (h : Loose C f) (hs : Sized f)
    (hin : f.view.StaysIn ops) (hfuel : ∀ op ∈ ops, op.size < fuel) : Answers C fuel f ops := by
  induction ops generalizing f with
  | nil => exact (h.answers_iff hC hin hfuel).2 trivial
  | cons op ops ih =>
    obtain ⟨g, hcall, hfollows⟩ := h.call hC hin.1 (hs.fresh op) (hfuel op List.mem_cons_self)
    have hrest := hin.2
    rw [← hfollows.view] at hrest
    obtain ⟨k, hout, hclose⟩ := ih hfollows.loose (hfollows.sized hs) hrest
      fun o ho => hfuel o (List.mem_cons_of_mem _ ho)
    rw [hfollows.view] at hout hclose
    exact ⟨k, outputs_cons.2 ⟨_, g, _, hcall, hout, rfl⟩, hclose⟩

/-- The seeks of a session that stays in the file stay in the file of the view. -/
theorem Good.staysIn (hC : 0 < C) {fuel : ℕ} {s : Session} {ops : List Op} (h : Good C s)
    (hs : Sized s.f) (hin : Meets (Session.step C .succeeding fuel) InFile s ops)
    (hfuel : ∀ op ∈ ops, op.size < fuel) : s.f.view.StaysIn ops := by
  induction ops generalizing s with
  | nil => trivial
  | cons op ops ih =>
    have hop := hfuel op List.mem_cons_self
    have hview : s.f.view.InFile op := by
      have hin := hin.1
      cases op with
      | seek pos =>
        have hle := hin.2
        rw [h.contents] at hle
        exact ⟨hin.1, hle⟩
      | _ => trivial
    obtain ⟨s', hstep, hgood, hsized⟩ := step_sized hC h hs hin.1 hop
    obtain ⟨g, hcall, hfollows⟩ := (hs.loose h.ok).call hC hview (hs.fresh op) hop
    have hf : s'.f = g := by
      cases (step_eq hcall).symm.trans hstep
      rfl
    refine ⟨hview, ?_⟩
    rw [← hfollows.view, ← hf]
    exact ih hgood hsized (hin.2 s' hstep) fun o ho => hfuel o (List.mem_cons_of_mem _ ho)

end CProj.FileIO.Student
