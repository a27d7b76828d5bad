/-
  Which block transfers of `student.c` come to an end.

  A round of the loop of `io300_read` breaks or copies a byte at least, whatever the outcomes are.
  Forwards every copy stays in the cache buffer.  Backwards a window that is cut short ends before
  the head; the length to copy is then taken from the request, and the copy may leave the buffer
  (`ReadOverruns`).  `io300_write` runs on where it gets stuck (`WriteHangs`).
-/
import CProj.FileIO.WriteRounds

namespace CProj.FileIO.Student

/-- The `i`-th `pread` does not fail, but transfers fewer than `n` bytes. -/
def Outcomes.Cuts (s : Outcomes) (n i : ℕ) : Prop :=
  ((s.preads i).any fun bs => bs.length < n) = true

/-- The condition under which `io300_read` of `sz` bytes copies from outside the cache buffer:
    going backwards, the window before the head is cut short, and the rest of the request does not
    fit into the buffer from the head on. -/
def ReadOverruns (C : ℕ) (f : Io300File Outcomes) (sz : ℕ) : Prop :=
  f.direction ≠ 1 ∧ (f.head : ℤ) ≤ f.fileSize ∧ f.cacheEnd - f.head < sz ∧
    (f.os.Cuts (min C f.cacheEnd) 0 ∧ C < min C f.cacheEnd + (sz - (f.cacheEnd - f.head)) ∨
      f.dirty = true ∧ f.os.pwrites 0 ≠ none ∧ f.os.preads 0 = none ∧ f.os.Cuts C 1 ∧
        C < sz - (f.cacheEnd - f.head))

/-- A call that returns, or in which an assertion fails, after finitely many rounds of its loop. -/
def Returns {α : Type} (call : ℕ → Except Abort α) : Prop := ∃ fuel, Returned (call fuel)

/-! ## Rounds of `io300_read` -/

section
variable {C sz : ℕ} {f g : Io300File Outcomes} {buff bs : List UInt8} {s : Outcomes}

/-- The loop of `io300_read`, as rounds on a handle and the bytes read so far. -/
def readRounds (C sz n : ℕ) (p : Io300File Outcomes × List UInt8) :
    Except Abort (Io300File Outcomes × List UInt8) := io300ReadLoop C outcomes n p.1 sz p.2

/-- From this handle, with `buff` read so far, the loop of `io300_read` ends. -/
abbrev ReadEnds (C sz : ℕ) (f : Io300File Outcomes) (buff : List UInt8) : Prop :=
  Gives (readRounds C sz) Returned (f, buff)

theorem readRounds_zero (p : Io300File Outcomes × List UInt8) : ¬ Returned (readRounds C sz 0 p) :=
  not_returned_running

theorem readEnds_done (h : sz ≤ buff.length) : ReadEnds C sz f buff := by
  refine ⟨1, ?_⟩
  rw [readRounds, io300ReadLoop, if_neg (Nat.not_lt.2 h)]
  exact returned_ok _

theorem goes_of_copy (hlt : buff.length < sz) (he : f.head ≠ f.cacheEnd)
    {p : Io300File Outcomes × List UInt8} (hcopy : readCopy C f sz buff = .ok p) :
    Goes (readRounds C sz) (f, buff) p := by
  intro n
  rw [readRounds, io300ReadLoop, if_pos hlt, if_neg he, hcopy]
  rfl

theorem goes_of_fetch (hlt : buff.length < sz) (he : f.head = f.cacheEnd) {r : ℤ}
    (hfetch : io300Fetch C outcomes f = .ok (r, g)) (hg : g.head ≠ g.cacheEnd)
    {p : Io300File Outcomes × List UInt8} (hcopy : readCopy C g sz buff = .ok p) :
    Goes (readRounds C sz) (f, buff) p := by
  intro n
  rw [readRounds, io300ReadLoop, if_pos hlt, if_pos he, hfetch, ok_bind]
  simp only [if_neg hg]
  rw [hcopy]
  rfl

theorem readEnds_break (he : f.head = f.cacheEnd) {r : ℤ}
    (hfetch : io300Fetch C outcomes f = .ok (r, g)) (hg : g.head = g.cacheEnd) :
    ReadEnds C sz f buff := by
  by_cases hlt : buff.length < sz
  swap
  · exact readEnds_done (Nat.le_of_not_lt hlt)
  refine ⟨1, ?_⟩
  rw [readRounds, io300ReadLoop, if_pos hlt, if_pos he, hfetch, ok_bind]
  simp only [if_pos hg]
  exact returned_ok _

theorem not_readEnds (hlt : buff.length < sz) (he : f.head = f.cacheEnd) {r : ℤ}
    (hfetch : io300Fetch C outcomes f = .ok (r, g)) (hg : g.head ≠ g.cacheEnd)
    (hcopy : readCopy C g sz buff = .error .outOfBounds) : ¬ ReadEnds C sz f buff := by
  rintro ⟨n, hn⟩
  cases n with
  | zero => exact readRounds_zero _ hn
  | succ n =>
    rw [readRounds, io300ReadLoop, if_pos hlt, if_pos he, hfetch, ok_bind] at hn
    simp only [if_neg hg] at hn
    rw [hcopy] at hn
    rcases hn with ⟨a, h⟩ | h <;> cases h

/-- The cache buffer holds `C` bytes, and the invariant that is asserted holds. -/
structure Buffered (C : ℕ) (f : Io300File Outcomes) : Prop where
  cache_len : f.cache.length = C
  held : Held C f

/-- A copy from the window moves the head on by as many bytes as are read. -/
theorem Buffered.readCopy_eq (h : Buffered C f) (sz : ℕ) (buff : List UInt8) : ∃ bs,
    readCopy C f sz buff =
      .ok ({ f with head := f.head + min (f.cacheEnd - f.head) (sz - buff.length) }, buff ++ bs) ∧
    bs.length = min (f.cacheEnd - f.head) (sz - buff.length) := by
  obtain ⟨hlen, h1, h2, h3⟩ := h
  refine ⟨slice f.cache (f.head - f.cacheStart) (min (f.cacheEnd - f.head) (sz - buff.length)), ?_,
    ?_⟩
  · rw [readCopy]
    simp only [if_neg (Nat.not_lt.2 h2), getCache]
    rw [if_pos (by omega)]
    rfl
  · rw [length_slice]
    omega

/-- What `io300_fetch` starts from when the window is used up: the write-back of a window that has
    been written to makes a new one, and otherwise the head stays at the end. -/
theorem Buffered.flushed (h : Buffered C f) (he : f.head = f.cacheEnd) :
    ∃ g s, Flushed C s f g ∧ Buffered C g ∧ s.preads = f.os.preads ∧
      (f.dirty = true ∧ f.os.pwrites 0 ≠ none ∧ g.cacheEnd = g.head + C ∧ g.dirty = false ∨
        ¬ (f.dirty = true ∧ f.os.pwrites 0 ≠ none) ∧ g.cacheEnd = g.head) := by
  have hin := h.held.inBuffer
  by_cases hd : f.dirty = true
  · by_cases hw : f.os.pwrites 0 = none
    · refine ⟨_, f.os.afterWrite, ⟨fetchFlush_failed h.held hd hw, ⟨hin.start_le, hin.head_le⟩,
        h.held.head_le, rfl, rfl, rfl, rfl⟩, ⟨h.cache_len, ⟨hin.start_le, h.held.head_le,
          h.held.end_le⟩⟩, rfl, .inr ⟨fun hn => hn.2 hw, he.symm⟩⟩
    · refine ⟨_, f.os.afterWrite, ⟨fetchFlush_written h.held hd hw,
        ⟨le_rfl, Nat.le_add_right _ _⟩,
        h.held.head_le.trans (Nat.le_add_right _ _), rfl, rfl, rfl, rfl⟩, ⟨h.cache_len, ⟨le_rfl, ?_,
          ?_⟩⟩, rfl, .inl ⟨hd, hw, ?_, rfl⟩⟩ <;> simp only <;> omega
  · refine ⟨_, f.os, ⟨fetchFlush_clean (eq_false_of_ne_true hd), ⟨le_rfl, Nat.le_add_right _ _⟩,
      le_rfl, he.symm, rfl, rfl, rfl⟩, ⟨h.cache_len, ⟨le_rfl, le_rfl, Nat.le_add_right _ _⟩⟩, rfl,
      .inr ⟨fun hn => hd hn.1, rfl⟩⟩

theorem length_loaded (g : Io300File Outcomes) (bs : List UInt8) (hg : g.cache.length = C) :
    (g.loaded C bs).cache.length = C := by
  refine le_antisymm (length_store_le.trans ?_) (hg.symm.le.trans le_length_store)
  rw [hg, List.length_take]
  split_ifs <;> omega

/-! ## Forwards -/

/-- `io300_fetch` of a window that is used up, forwards. -/
theorem Buffered.fetch_forward (h : Buffered C f) (he : f.head = f.cacheEnd)
    (hd : f.direction = 1) :
    ∃ r g, io300Fetch C outcomes f = .ok (r, g) ∧ Buffered C g ∧ g.direction = 1 := by
  obtain ⟨g, s, hg, hb, -, -⟩ := h.flushed he
  have hdir := hg.direction.trans hd
  rcases hr : g.os.preads 0 with - | bs
  · exact ⟨_, _, io300Fetch_none h.held hg.flush hg.inBuffer.start_le hg.le hr,
      ⟨hb.cache_len, hb.held.start_le, hb.held.head_le, hb.held.end_le⟩, hdir⟩
  · refine ⟨_, _, io300Fetch_some h.held hg.flush hg.inBuffer.start_le hg.le hr,
      ⟨length_loaded g bs hb.cache_len, ?_, ?_, ?_⟩, hdir⟩ <;>
      simp only [Io300File.loaded, if_pos hdir] <;> omega

/-- **Forwards the loop ends**, in a return or a failed assertion: every round breaks or copies a
    byte at least, from inside the buffer. -/
theorem readEnds_forward (h : Buffered C f) (hd : f.direction = 1) (buff : List UInt8) :
    ReadEnds C sz f buff := by
  refine gives_of_measure (fun p : Io300File Outcomes × List UInt8 => Buffered C p.1 ∧
    p.1.direction = 1) (fun p => sz - p.2.length) (fun p hp => ?_) (s := (f, buff)) ⟨h, hd⟩
  obtain ⟨f, buff⟩ := p
  obtain ⟨h, hd⟩ : Buffered C f ∧ f.direction = 1 := hp
  by_cases hlt : buff.length < sz
  swap
  · exact .inl (readEnds_done (Nat.le_of_not_lt hlt))
  -- a copy from a window with bytes in it
  have hround : ∀ g, Buffered C g → g.direction = 1 → g.head ≠ g.cacheEnd → ∃ p,
      readCopy C g sz buff = .ok p ∧ (Buffered C p.1 ∧ p.1.direction = 1) ∧
        sz - p.2.length < sz - buff.length := by
    intro g hg hdir hne
    obtain ⟨bs, hcopy, hlen⟩ := hg.readCopy_eq sz buff
    obtain ⟨hcache, h1, h2, h3⟩ := hg
    refine ⟨_, hcopy, ⟨⟨hcache, ?_, ?_, h3⟩, hdir⟩, ?_⟩
    · simp only
      omega
    · simp only
      omega
    · rw [List.length_append]
      omega
  by_cases he : f.head = f.cacheEnd
  · obtain ⟨r, g, hfetch, hg, hdir⟩ := h.fetch_forward he hd
    by_cases hend : g.head = g.cacheEnd
    · exact .inl (readEnds_break he hfetch hend)
    · obtain ⟨p, hcopy, hp, hless⟩ := hround g hg hdir hend
      exact .inr ⟨p, goes_of_fetch hlt he hfetch hend hcopy, hp, hless⟩
  · obtain ⟨p, hcopy, hp, hless⟩ := hround f h hd he
    exact .inr ⟨p, goes_of_copy hlt he hcopy, hp, hless⟩

/-! ## Backwards -/

theorem cuts_some {n i : ℕ} (hr : s.preads i = some bs) : s.Cuts n i ↔ bs.length < n := by
  simp [Outcomes.Cuts, hr]

theorem not_cuts_none {n i : ℕ} (hr : s.preads i = none) : ¬ s.Cuts n i := by
  simp [Outcomes.Cuts, hr]

/-- A window that ends before the head: the rest of the request is copied, if it lies in the
    buffer. -/
theorem readCopy_beyond (hlen : g.cache.length = C) (hlt : g.cacheEnd < g.head) (sz : ℕ)
    (buff : List UInt8) :
    (g.head - g.cacheStart + (sz - buff.length) ≤ C →
      ∃ p, readCopy C g sz buff = .ok p ∧ sz ≤ p.2.length) ∧
    (C < g.head - g.cacheStart + (sz - buff.length) →
      readCopy C g sz buff = .error .outOfBounds) := by
  rw [readCopy]
  simp only [if_pos hlt, getCache]
  constructor
  · intro hle
    rw [if_pos hle]
    refine ⟨_, rfl, ?_⟩
    simp only [List.length_append, length_slice]
    omega
  · intro hgt
    rw [if_neg (Nat.not_le.2 hgt)]
    rfl

/-- A round in which `pread` reads `bs` is the last one. -/
theorem Buffered.readEnds_load (h : Buffered C f) (he : f.head = f.cacheEnd) (hd : f.direction ≠ 1)
    (hlt : buff.length < sz) (hg : Flushed C s f g) (hb : Buffered C g)
    (hr : s.preads 0 = some bs) :
    ReadEnds C sz f buff ↔
      ¬ (bs.length < min C f.head ∧ C < min C f.head + (sz - buff.length)) := by
  have hr' : g.os.preads 0 = some bs := by rw [hg.os, hr]
  have hfetch := io300Fetch_some h.held hg.flush hg.inBuffer.start_le hg.le hr'
  have hdir : g.direction ≠ 1 := by rw [hg.direction]; exact hd
  have hhead : (g.loaded C bs).head = f.head := hg.head
  have hstart : (g.loaded C bs).cacheStart = f.head - C := by
    simp only [Io300File.loaded, if_neg hdir, hg.head]
  have hend : (g.loaded C bs).cacheEnd = f.head - C + min (min C f.head) bs.length := by
    simp only [Io300File.loaded, if_neg hdir, hg.head]
  by_cases hcut : bs.length < min C f.head
  swap
  · -- the whole window before the head: it is used up already
    refine iff_of_true (readEnds_break he hfetch ?_) fun hn => hcut hn.1
    rw [hhead, hend]
    omega
  have hbeyond : (g.loaded C bs).cacheEnd < (g.loaded C bs).head := by
    rw [hhead, hend]
    omega
  have hsub : f.head - (f.head - C) = min C f.head := by omega
  obtain ⟨hin, hout⟩ := readCopy_beyond (length_loaded g bs hb.cache_len) hbeyond sz buff
  rw [hhead, hstart, hsub] at hin hout
  by_cases hfit : min C f.head + (sz - buff.length) ≤ C
  · obtain ⟨p, hcopy, hp⟩ := hin hfit
    refine iff_of_true ?_ fun hn => absurd hn.2 (Nat.not_lt.2 hfit)
    exact (goes_of_fetch hlt he hfetch hbeyond.ne' hcopy).gives (readEnds_done hp)
  · have hgt := Nat.lt_of_not_le hfit
    exact iff_of_false (not_readEnds hlt he hfetch hbeyond.ne' (hout hgt)) fun hn => hn ⟨hcut, hgt⟩

/-- The window is used up, and is not written back. -/
theorem Buffered.readEnds_clean (h : Buffered C f) (he : f.head = f.cacheEnd)
    (hd : f.direction ≠ 1) (hlt : buff.length < sz)
    (hclean : ¬ (f.dirty = true ∧ f.os.pwrites 0 ≠ none)) :
    ReadEnds C sz f buff ↔
      ¬ (f.os.Cuts (min C f.head) 0 ∧ C < min C f.head + (sz - buff.length)) := by
  obtain ⟨g, s, hg, hb, hs, ⟨hdirty, hw, -, -⟩ | ⟨-, hend⟩⟩ := h.flushed he
  · exact absurd ⟨hdirty, hw⟩ hclean
  rcases hr : f.os.preads 0 with - | bs
  · have hr' : g.os.preads 0 = none := by rw [hg.os, hs, hr]
    have hfetch := io300Fetch_none h.held hg.flush hg.inBuffer.start_le hg.le hr'
    exact iff_of_true (readEnds_break he hfetch hend.symm) fun hn => not_cuts_none hr hn.1
  · rw [cuts_some hr]
    exact h.readEnds_load he hd hlt hg hb (by rw [hs, hr])

/-- The window is used up. -/
theorem Buffered.readEnds_back (h : Buffered C f) (hC : 0 < C) (he : f.head = f.cacheEnd)
    (hd : f.direction ≠ 1) (hlt : buff.length < sz) :
    ReadEnds C sz f buff ↔
      ¬ (f.os.Cuts (min C f.head) 0 ∧ C < min C f.head + (sz - buff.length) ∨
        f.dirty = true ∧ f.os.pwrites 0 ≠ none ∧ f.os.preads 0 = none ∧ f.os.Cuts C 1 ∧
          C < sz - buff.length) := by
  by_cases hwritten : f.dirty = true ∧ f.os.pwrites 0 ≠ none
  swap
  · rw [h.readEnds_clean he hd hlt hwritten]
    tauto
  obtain ⟨g, s, hg, hb, hs, ⟨hdirty, hw, hend, hclean⟩ | ⟨hn, -⟩⟩ := h.flushed he
  swap
  · exact absurd hwritten hn
  rcases hr : f.os.preads 0 with - | bs
  swap
  · rw [cuts_some hr, h.readEnds_load he hd hlt hg hb (by rw [hs, hr])]
    simp only [reduceCtorEq, false_and, and_false, or_false]
  -- the new window is made of what the buffer held, and used up by the next round
  have hr' : g.os.preads 0 = none := by rw [hg.os, hs, hr]
  have hfetch := io300Fetch_none h.held hg.flush hg.inBuffer.start_le hg.le hr'
  have hk : Buffered C { g with os := g.os.afterRead } :=
    ⟨hb.cache_len, hb.held.start_le, hb.held.head_le, hb.held.end_le⟩
  obtain ⟨bs, hcopy, hlen⟩ := hk.readCopy_eq sz buff
  have hsub : g.cacheEnd - g.head = C := by omega
  simp only [hsub] at hcopy hlen
  have hgoes := goes_of_fetch hlt he hfetch (by simp only; omega) hcopy
  rw [ReadEnds, hgoes.gives_iff (readRounds_zero _)]
  by_cases hfit : sz - buff.length ≤ C
  · refine iff_of_true (readEnds_done (by rw [List.length_append]; omega)) ?_
    rintro (⟨hcut, -⟩ | ⟨-, -, -, -, hgt⟩)
    · exact not_cuts_none hr hcut
    · exact absurd hgt (Nat.not_lt.2 hfit)
  rw [min_eq_left (Nat.le_of_not_le hfit)] at hlen ⊢
  have hused : Buffered C { g with os := g.os.afterRead, head := g.head + C } :=
    ⟨hb.cache_len, hb.held.start_le.trans (Nat.le_add_right _ _), hend.ge, hb.held.end_le⟩
  refine (hused.readEnds_clean hend.symm (by rw [hg.direction]; exact hd)
    (by rw [List.length_append]; omega) fun hn => ?_).trans (not_congr ?_)
  · rw [hclean] at hn
    exact Bool.false_ne_true hn.1
  have hcuts : g.os.afterRead.Cuts C 0 ↔ f.os.Cuts C 1 := by
    rw [Outcomes.Cuts, Outcomes.Cuts, Outcomes.afterRead, ← hs, ← hg.os]
  simp only [min_eq_left (Nat.le_add_left C g.head), hcuts, List.length_append, hlen]
  constructor
  · exact fun hn => .inr ⟨hdirty, hw, trivial, hn.1, by omega⟩
  · rintro (⟨hcut, -⟩ | ⟨-, -, -, hcut, -⟩)
    · exact absurd hcut (not_cuts_none hr)
    · exact ⟨hcut, by omega⟩

/-- **The loop of `io300_read`** ends unless a copy leaves the buffer. -/
theorem readEnds_iff (hC : 0 < C) (h : Buffered C f) (hF : (f.head : ℤ) ≤ f.fileSize) :
    ReadEnds C sz f [] ↔ ¬ ReadOverruns C f sz := by
  by_cases hd : f.direction = 1
  · exact iff_of_true (readEnds_forward h hd []) fun hn => hn.1 hd
  have h2 := h.held.head_le
  rw [ReadOverruns]
  by_cases hzero : 0 < sz
  swap
  · exact iff_of_true (readEnds_done (Nat.le_of_not_lt hzero)) fun hn => by omega
  by_cases he : f.head = f.cacheEnd
  · have hsub : f.cacheEnd - f.head = 0 := by omega
    rw [h.readEnds_back hC he hd hzero, hsub, ← he, List.length_nil, Nat.sub_zero]
    exact not_congr ⟨fun hn => ⟨hd, hF, hzero, hn⟩, fun hn => hn.2.2.2⟩
  obtain ⟨bs, hcopy, hlen⟩ := h.readCopy_eq sz []
  have hgoes := goes_of_copy hzero he hcopy
  rw [ReadEnds, hgoes.gives_iff (readRounds_zero _), List.nil_append]
  rw [List.length_nil, Nat.sub_zero] at hlen ⊢
  by_cases hfit : sz ≤ f.cacheEnd - f.head
  · exact iff_of_true (readEnds_done (by omega)) fun hn => by omega
  rw [min_eq_left (Nat.le_of_not_le hfit)] at hlen ⊢
  have hlast : f.head + (f.cacheEnd - f.head) = f.cacheEnd := by omega
  have hused : Buffered C { f with head := f.head + (f.cacheEnd - f.head) } :=
    ⟨h.cache_len, h.held.start_le.trans (Nat.le_add_right _ _), hlast.le, h.held.end_le⟩
  refine (hused.readEnds_back hC hlast hd (by omega)).trans ?_
  simp only [hlast, hlen]
  exact not_congr ⟨fun hn => ⟨hd, hF, Nat.lt_of_not_le hfit, hn⟩, fun hn => hn.2.2.2⟩

end

/-! ## The calls -/

section
variable {C : ℕ} {f : Io300File Outcomes} {buff : List UInt8}

theorem returned_bind {α β : Type} {x : Except Abort α} {k : α → Except Abort β}
    (hk : ∀ a, ∃ b, k a = .ok b) : Returned (x >>= k) ↔ Returned x := by
  cases x with
  | ok a =>
    obtain ⟨b, hb⟩ := hk a
    rw [ok_bind, hb]
    exact iff_of_true (returned_ok b) (returned_ok a)
  | error e => simp [Returned]

/-- **`io300_read` ends** unless a copy leaves the cache buffer. -/
theorem io300Read_returns_iff (hC : 0 < C) (h : Buffered C f) (sz : ℕ) :
    Returns (fun fuel => io300Read C outcomes fuel f sz) ↔ ¬ ReadOverruns C f sz := by
  by_cases hF : (f.head : ℤ) > f.fileSize
  · refine iff_of_true ⟨0, ?_⟩ fun hn => by have := hn.2.1; omega
    show Returned (io300Read C outcomes 0 f sz)
    rw [io300Read, held_iff.1 h.held, ok_bind, if_pos hF]
    exact returned_ok _
  · rw [← readEnds_iff hC h (Int.not_lt.1 hF)]
    refine exists_congr fun fuel => ?_
    simp only [io300Read, held_iff.1 h.held, ok_bind, if_neg hF]
    exact returned_bind fun _ => ⟨_, rfl⟩

/-- **`io300_write` ends** unless it hangs. -/
theorem io300Write_returns_iff (hC : 0 < C) (h : Held C f) (buff : List UInt8) :
    Returns (fun fuel => io300Write C outcomes fuel f buff) ↔ ¬ WriteHangs C f buff.length := by
  rw [← writeEnds_iff hC h]
  refine exists_congr fun fuel => ?_
  simp only [io300Write, held_iff.1 h, ok_bind]
  refine returned_bind fun r => ?_
  cases r.1 <;> exact ⟨_, rfl⟩

/-- **Which transfers end.** From every handle whose invariants hold, with every outcome of the
    calls to come: `io300_read` and `io300_write`, of any numbers of bytes, return or fail an
    assertion after finitely many rounds exactly if the reading does not overrun the cache buffer
    and the writing does not hang. -/
theorem transfers_return_iff (hC : 0 < C) (hcache : f.cache.length = C)
    (hf : checkInvariants C f = .ok ()) (sz : ℕ) (buff : List UInt8) :
    Returns (fun fuel => io300Read C outcomes fuel f sz) ∧
        Returns (fun fuel => io300Write C outcomes fuel f buff) ↔
      ¬ ReadOverruns C f sz ∧ ¬ WriteHangs C f buff.length := by
  have hheld := held_iff.2 hf
  rw [io300Read_returns_iff hC ⟨hcache, hheld⟩, io300Write_returns_iff hC hheld]

/-- Every call fails. -/
def failing : Outcomes := ⟨fun _ => none, fun _ => none⟩

/-- A window of 4 bytes with room for two, where every call fails. -/
theorem transfers_return_iff_room :
    Returns (fun fuel => io300Read 4 outcomes fuel ⟨failing, [1, 2, 3, 4], true, 2, 0, 4, 8, 1⟩ 9) ∧
      Returns (fun fuel =>
        io300Write 4 outcomes fuel ⟨failing, [1, 2, 3, 4], true, 2, 0, 4, 8, 1⟩ [5, 6]) :=
  (transfers_return_iff (by decide) rfl rfl 9 [5, 6]).2
    ⟨fun h => h.1 rfl, fun h => absurd h.1 (by decide)⟩

end

/-- The window `[0, 4096)` of a file of 8192 bytes, written to up to its end. -/
def fullHandle : Io300File Outcomes where
  os := failing
  cache := List.replicate 4096 0
  dirty := true
  head := 4096
  cacheStart := 0
  cacheEnd := 4096
  fileSize := 8192
  direction := 1

/-- When every `pread` and `pwrite` fails, `io300_write` of one more byte never ends. -/
theorem io300Write_hangs : checkInvariants 4096 fullHandle = .ok () ∧
    ∀ fuel, io300Write 4096 outcomes fuel fullHandle [7] = .error .running := by
  refine ⟨rfl, fun fuel => ?_⟩
  have hfull : Full 4096 failing 1 4096 8192 fullHandle := ⟨rfl, rfl, rfl, rfl, rfl, rfl, by decide⟩
  have hnever : ∀ i, ¬ Advances 4096 failing 1 i := by
    rintro i (⟨hw, -⟩ | ⟨-, hfill⟩)
    · exact hw rfl
    · cases hfill
  have hstuck : Stuck 4096 failing 1 4096 8192 [(7 : UInt8)].length := by
    intro i
    have hcount : Nat.count (Advances 4096 failing 1) i = 0 :=
      Nat.count_iff_forall_not.2 fun j _ => hnever j
    refine ⟨.inl (.inl ⟨rfl, rfl⟩), ?_⟩
    rw [hcount]
    decide
  have hloop : io300WriteLoop 4096 outcomes fuel fullHandle [7] = .error .running :=
    hfull.runs_on (by decide) rfl hstuck fuel
  rw [io300Write, hloop]
  rfl

end CProj.FileIO.Student
