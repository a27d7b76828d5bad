/-
  The cache window of a handle and the file it stands for.

  The bytes of the cache in front of the head, `[cacheStart, head)`, are the ones that a flush
  writes back: the file a handle stands for is the file on disk with these bytes stored
  (`contents`).  `Ok` is the invariant of a handle between two calls, when all system calls
  succeed; `Mid` is the weaker one that holds inside the loop of `io300_write`, where the head
  may have run past `cacheEnd`.
-/
import CProj.Lib.Run
import CProj.FileIO.Student

namespace CProj.FileIO

namespace Student

variable {C : ℕ} {f : Io300File Os}

namespace Io300File

/-- The file the handle stands for. -/
def contents (f : Io300File Os) : List UInt8 :=
  store 0 f.os.data f.cacheStart (f.cache.take (f.head - f.cacheStart))

/-- The bytes of the window from the head on are those of the file. -/
def Valid (f : Io300File Os) : Prop :=
  slice f.cache (f.head - f.cacheStart) (f.cacheEnd - f.head) =
    slice f.contents f.head (f.cacheEnd - f.head)

/-- The shape of a window: it holds at most the cache, and the head lies in it or in the rest
    of the cache. -/
structure Win (C : ℕ) (f : Io300File Os) : Prop where
  start_le : f.cacheStart ≤ f.head
  head_le : f.head ≤ f.cacheStart + C
  start_le_end : f.cacheStart ≤ f.cacheEnd
  end_le : f.cacheEnd ≤ f.cacheStart + C
  cache_len : f.cache.length = C
  dir : f.direction = 1
  clean : f.dirty = false → f.contents = f.os.data

/-- The handle inside `io300_write`. -/
structure Mid (C : ℕ) (f : Io300File Os) : Prop extends Win C f where
  /-- a window with garbage behind the head is never read: either the head is past the cached
      size, or it is at the end of the file -/
  valid : (f.head : ℤ) < f.fileSize → f.head < f.contents.length → f.Valid
  /-- a window is only short at the end of the file or at the cached size -/
  short : f.cacheEnd < f.cacheStart + C →
    f.fileSize ≤ f.cacheEnd ∨ f.contents.length ≤ max f.cacheEnd f.head

/-- The handle between two calls. -/
structure Ok (C : ℕ) (f : Io300File Os) : Prop extends Mid C f where
  head_le_end : f.head ≤ f.cacheEnd
  clean_valid : f.dirty = false → f.Valid
  valid_le : (f.head : ℤ) ≤ f.fileSize → f.head < f.contents.length → f.Valid

theorem data_le_contents : f.os.data.length ≤ f.contents.length := le_length_store

theorem contents_le (h : Win C f) : f.contents.length ≤ max f.os.data.length f.head := by
  have := h.start_le
  refine length_store_le.trans ?_
  simp only [List.length_take]
  omega

/-- With the head at the start of the window there is nothing to write back. -/
theorem contents_of_head_eq (h : f.head = f.cacheStart) : f.contents = f.os.data := by
  simp [contents, h]

theorem valid_of_head_eq (h : f.head = f.cacheEnd) : f.Valid := by simp [Valid, slice, h]

/-- A valid window does not reach past the end of the file. -/
theorem Valid.end_le (hv : f.Valid) (h : Win C f) (hle : f.head ≤ f.cacheEnd) :
    f.cacheEnd ≤ max f.head f.contents.length := by
  have h1 := congrArg List.length hv
  have h2 := h.cache_len
  have h3 := h.end_le
  have h4 := h.start_le
  simp only [length_slice] at h1
  omega

/-- The part of a valid window next to the head. -/
theorem Valid.slice_eq (hv : f.Valid) {n : ℕ} (hn : n ≤ f.cacheEnd - f.head) :
    slice f.cache (f.head - f.cacheStart) n = slice f.contents f.head n := by
  have h := congrArg (List.take n) hv
  simpa only [slice, List.take_take, min_eq_left hn] using h

/-! ## Moving the head over bytes of the window -/

/-- Moving the head over `n` bytes of the cache makes them part of the file. -/
theorem contents_advance (h1 : f.cacheStart ≤ f.head) {n : ℕ}
    (hn : f.head + n ≤ f.cacheStart + f.cache.length) :
    { f with head := f.head + n }.contents =
      store 0 f.contents f.head (slice f.cache (f.head - f.cacheStart) n) := by
  set front := f.cache.take (f.head - f.cacheStart) with hfront
  have h2 : f.head = f.cacheStart + front.length := by rw [hfront, List.length_take]; omega
  have h3 : f.cache.take (f.head + n - f.cacheStart) =
      front ++ slice f.cache (f.head - f.cacheStart) n := by
    rw [show f.head + n - f.cacheStart = f.head - f.cacheStart + n by omega, List.take_add]; rfl
  have h4 : store 0 (store 0 f.os.data f.cacheStart front) (f.cacheStart + front.length)
      (slice f.cache (f.head - f.cacheStart) n) = _ := store_store _
  rw [← h2] at h4
  simp only [contents, h3]
  exact h4.symm

/-- Moving the head over valid bytes leaves the file as it is. -/
theorem Valid.contents_advance (hv : f.Valid) (h : Win C f) {n : ℕ}
    (hn : f.head + n ≤ f.cacheEnd) : { f with head := f.head + n }.contents = f.contents := by
  have h1 := h.end_le
  have h2 := h.cache_len
  rw [Io300File.contents_advance h.start_le (by omega), hv.slice_eq (by omega), store_slice]

theorem Valid.advance (hv : f.Valid) (h : Win C f) {n : ℕ} (hn : f.head + n ≤ f.cacheEnd) :
    { f with head := f.head + n }.Valid := by
  have h1 := h.start_le
  have hsplit := hv
  rw [Valid, show f.cacheEnd - f.head = n + (f.cacheEnd - (f.head + n)) by omega, slice_add,
    slice_add] at hsplit
  have hlen : (slice f.cache (f.head - f.cacheStart) n).length =
      (slice f.contents f.head n).length := by
    rw [hv.slice_eq (by omega)]
  have htail := (List.append_inj hsplit hlen).2
  rw [Valid, hv.contents_advance h hn]
  simpa only [show f.head + n - f.cacheStart = f.head - f.cacheStart + n by omega] using htail

/-- **Reading moves between good handles**, even over bytes that are not valid. -/
theorem Ok.advance (h : Ok C f) {n : ℕ} (hn : f.head + n ≤ f.cacheEnd) :
    Ok C { f with head := f.head + n } := by
  have h1 := h.start_le
  have h2 := h.end_le
  have h3 := h.cache_len
  have hcont := Io300File.contents_advance (n := n) h1 (by omega)
  have hlen : { f with head := f.head + n }.contents.length ≤ max f.contents.length
    (f.head + n) := by
    rw [hcont]
    refine length_store_le.trans ?_
    rw [length_slice]; omega
  -- behind the end of the file the new head is the end; before it the window was valid
  have hvalid : (f.head : ℤ) + n ≤ f.fileSize →
      f.head + n < { f with head := f.head + n }.contents.length → f.Valid := by
    intro hF hl
    refine h.valid_le (by omega) (by omega)
  refine ⟨⟨⟨by simp; omega, by simp; omega, h.start_le_end, h.end_le, h3, h.dir, fun hd => ?_⟩,
    fun hF hl => ?_, fun hs => ?_⟩, hn, fun hd => (h.clean_valid hd).advance h.toWin hn,
    fun hF hl => ?_⟩
  · rw [(h.clean_valid hd).contents_advance h.toWin hn]; exact h.clean hd
  · simp only [Nat.cast_add] at hF
    exact (hvalid (by omega) hl).advance h.toWin hn
  · have := h.head_le_end
    rcases h.short hs with h4 | h4
    · exact Or.inl h4
    · right; simp only at *; omega
  · simp only [Nat.cast_add] at hF
    exact (hvalid (by omega) hl).advance h.toWin hn

/-! ## Storing bytes at the head -/

/-- The handle after `bs` has been copied into the cache at the head. -/
def put (f : Io300File Os) (bs : List UInt8) : Io300File Os :=
  { f with
    cache := store 0 f.cache (f.head - f.cacheStart) bs
    head := f.head + bs.length
    dirty := true }

section
variable {bs : List UInt8}

theorem length_cache_put (h1 : f.cacheStart ≤ f.head)
    (hn : f.head + bs.length ≤ f.cacheStart + f.cache.length) :
    (f.put bs).cache.length = f.cache.length := by
  rcases eq_or_ne bs [] with rfl | h
  · rfl
  · rw [put, length_store h]; omega

/-- **Storing at the head stores in the file.** -/
theorem contents_put (h1 : f.cacheStart ≤ f.head)
    (hn : f.head + bs.length ≤ f.cacheStart + f.cache.length) :
    (f.put bs).contents = store 0 f.contents f.head bs := by
  have hlen := length_cache_put h1 hn
  have h2 := Io300File.contents_advance (f := { f with cache := (f.put bs).cache }) (n := bs.length)
    h1 (by simp only [hlen]; omega)
  have h3 : { f with cache := (f.put bs).cache }.contents = f.contents := by
    simp only [contents, put]
    rw [take_store (by omega)]
  rw [h3] at h2
  simp only [put, slice_store] at h2
  exact h2

theorem Valid.put (hv : f.Valid) (h1 : f.cacheStart ≤ f.head)
    (hn : f.head + bs.length ≤ f.cacheStart + f.cache.length)
    (hle : f.head + bs.length ≤ f.cacheEnd) : (f.put bs).Valid := by
  rw [Valid, contents_put h1 hn]
  simp only [Io300File.put]
  rw [slice_store_ge (by omega), slice_store_ge le_rfl]
  have hsplit := hv
  rw [Valid, show f.cacheEnd - f.head = bs.length + (f.cacheEnd - (f.head + bs.length)) by omega,
    slice_add, slice_add] at hsplit
  have hlen : (slice f.cache (f.head - f.cacheStart) bs.length).length =
      (slice f.contents f.head bs.length).length := by rw [hv.slice_eq (by omega)]
  have htail := (List.append_inj hsplit hlen).2
  rwa [show f.head + bs.length - f.cacheStart = f.head - f.cacheStart + bs.length by omega]

/-- **Storing in the window keeps a handle good**, up to the end of the window, which the head
    may have passed. -/
theorem Mid.put (h : Mid C f) (hb : bs ≠ []) (hn : f.head + bs.length ≤ f.cacheStart + C) :
    Mid C (f.put bs) ∧ ((f.head + bs.length : ℤ) ≤ f.fileSize →
      f.head + bs.length < (f.put bs).contents.length →
      f.head + bs.length ≤ f.cacheEnd → (f.put bs).Valid) := by
  have h1 := h.start_le
  have h3 := h.cache_len
  have hpos := List.length_pos_of_ne_nil hb
  have hcont : (f.put bs).contents = store 0 f.contents f.head bs := contents_put h1 (by omega)
  have hlen : (f.put bs).contents.length = max f.contents.length (f.head + bs.length) := by
    rw [hcont, length_store hb]
  have hstrong : ((f.head + bs.length : ℕ) : ℤ) ≤ f.fileSize →
      f.head + bs.length < (f.put bs).contents.length →
      f.head + bs.length ≤ f.cacheEnd → (f.put bs).Valid := by
    intro hF hl hle
    exact (h.valid (by omega) (by omega)).put h1 (by omega) hle
  have hshort : f.cacheEnd < f.cacheStart + C → f.fileSize ≤ f.cacheEnd ∨
      (f.put bs).contents.length ≤ max f.cacheEnd (f.head + bs.length) := by
    intro hs
    rcases h.short hs with h4 | h4
    · exact Or.inl h4
    · right; rw [hlen]; omega
  refine ⟨⟨⟨by simp [Io300File.put]; omega, hn, h.start_le_end, h.end_le, ?_, h.dir,
    by simp [Io300File.put]⟩, fun hF hl => ?_, hshort⟩, by exact_mod_cast hstrong⟩
  · rw [length_cache_put h1 (by omega)]; exact h3
  · by_cases hle : f.head + bs.length ≤ f.cacheEnd
    · exact hstrong (le_of_lt hF) hl hle
    · -- a head past the end of the window is past the cached size or at the end of the file
      exfalso
      have hF' : ((f.head + bs.length : ℕ) : ℤ) < f.fileSize := hF
      have hl' : f.head + bs.length < (f.put bs).contents.length := hl
      rcases hshort (by omega) with h4 | h4 <;> omega

end

end Io300File

end Student

end CProj.FileIO
