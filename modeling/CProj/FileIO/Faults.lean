/-
  Sessions on `student.c` whose `pwrite` calls may fail or write only a prefix.

  `io300_flush` is entered from five places.  `io300_seek`, `io300_fetch` and `io300_close` ignore
  its result, and it takes a partial write for a whole one.  `Kept` says that no flush of a call
  loses dirty bytes that way, in terms of the handle and the outcome of the next `pwrite`; a call
  that meets it is the call of a session without faults, or it returns `-1`.
-/
import CProj.FileIO.Sessions

namespace CProj.FileIO

/-- The outcome transfers `n` bytes if it is asked for `n`. -/
def Outcome.Covers (n : ℕ) : Outcome → Prop
  | .full => True
  | .short k => n ≤ k
  | .fail => False

/-- Only `pwrite` calls go wrong. -/
def Sys.WriteFaults (sys : Sys) : Prop := ∀ c n, c ≠ .pwrite → sys.outcome c n = .full

theorem Outcome.Covers.cut_eq {o : Outcome} {bs : List UInt8} (h : o.Covers bs.length) :
    o.cut bs = some bs := by
  cases o with
  | full => rfl
  | short k => rw [Outcome.cut, List.take_of_length_le h]
  | fail => exact h.elim

theorem pwrite_of_covers {sys : Sys} {os : Os} {bs : List UInt8} (off : ℕ)
    (h : (sys.outcome .pwrite os.calls).Covers bs.length) :
    pwrite sys os bs off = pwrite .succeeding os bs off := by
  rw [pwrite, h.cut_eq]
  rfl

namespace Student

open Io300File

variable {C : ℕ} {sys : Sys} {f : Io300File Os}

/-! ## Flushes that keep the bytes -/

/-- A flush of the handle whose result is ignored loses nothing: the bytes in front of the head, if
    they have to be written back, all reach the disk. -/
def Safe (sys : Sys) (f : Io300File Os) : Prop :=
  f.dirty = true → (sys.outcome .pwrite f.os.calls).Covers (f.head - f.cacheStart)

/-- A flush of the handle whose result is checked loses nothing, or fails. -/
def Checked (sys : Sys) (f : Io300File Os) : Prop :=
  f.dirty = true → sys.outcome .pwrite f.os.calls = .fail ∨
    (sys.outcome .pwrite f.os.calls).Covers (f.head - f.cacheStart)

theorem safe_of_clean (h : f.dirty = false) : Safe sys f := by
  intro hd
  rw [h] at hd
  cases hd

/-- Writing a part of what is on disk already changes nothing. -/
theorem store_take_eq {d bs : List UInt8} {off : ℕ} (h : store 0 d off bs = d) (k : ℕ) :
    store 0 d off (bs.take k) = d := by
  have hbs : bs = slice d off bs.length := by
    conv_rhs => rw [← h]
    rw [slice_store]
  have htake : bs.take k = slice d off (min k bs.length) := by
    conv_lhs => rw [hbs]
    rw [slice, slice, List.take_take]
  rw [htake, store_slice]

/-- **A flush that loses nothing** is a flush without faults. -/
theorem io300Flush_same (h : Win C f) (hle : f.head ≤ f.cacheEnd) (hs : Safe sys f)
    (hne : sys.outcome .pwrite f.os.calls ≠ .fail) :
    io300Flush C sys.device f = io300Flush C .succeeding f := by
  have h1 := h.head_le
  have h2 := h.cache_len
  have hget : getCache C f 0 (f.head - f.cacheStart) =
      .ok (f.cache.take (f.head - f.cacheStart)) := by
    rw [getCache, if_pos (by omega)]; rfl
  have hlen : (f.cache.take (f.head - f.cacheStart)).length = f.head - f.cacheStart := by
    rw [List.length_take]; omega
  rw [io300Flush, io300Flush, checkInvariants_ok h hle, ok_bind, ok_bind, hget, ok_bind, ok_bind,
    Sys.device_pwrite, Sys.device_pwrite]
  cases hd : f.dirty with
  | true =>
    have hcov := hs hd
    rw [← hlen] at hcov
    rw [pwrite_of_covers _ hcov]
  | false =>
    -- a clean window holds bytes of the disk
    have hcont : store 0 f.os.data f.cacheStart (f.cache.take (f.head - f.cacheStart)) =
        f.os.data :=
      h.clean hd
    rw [pwrite, pwrite]
    cases hout : sys.outcome .pwrite f.os.calls with
    | full => rfl
    | short k =>
      simp only [Sys.succeeding, Outcome.cut, hcont, store_take_eq hcont k]
    | fail => exact absurd hout hne

theorem io300Flush_failed (h : Win C f) (hle : f.head ≤ f.cacheEnd)
    (hout : sys.outcome .pwrite f.os.calls = .fail) :
    io300Flush C sys.device f =
      .ok (-1, { f with os := { f.os with calls := f.os.calls + 1 } }) := by
  have h1 := h.head_le
  have hget : getCache C f 0 (f.head - f.cacheStart) =
      .ok (f.cache.take (f.head - f.cacheStart)) := by
    rw [getCache, if_pos (by omega)]; rfl
  rw [io300Flush, checkInvariants_ok h hle, ok_bind, hget, ok_bind]
  simp only [Sys.device_pwrite, pwrite, hout, Outcome.cut]
  rfl

theorem Safe.flush (hs : Safe sys f) (h : Win C f) (hle : f.head ≤ f.cacheEnd)
    (hd : f.dirty = true) : io300Flush C sys.device f = io300Flush C .succeeding f := by
  refine io300Flush_same h hle hs fun hout => ?_
  have hcov := hs hd
  rw [hout] at hcov
  exact hcov

/-- A checked flush is a flush without faults, or it returns `-1`. -/
theorem Checked.flush (hs : Checked sys f) (h : Win C f) (hle : f.head ≤ f.cacheEnd) :
    io300Flush C sys.device f = io300Flush C .succeeding f ∨
      ∃ g, io300Flush C sys.device f = .ok (-1, g) := by
  by_cases hout : sys.outcome .pwrite f.os.calls = .fail
  · exact Or.inr ⟨_, io300Flush_failed h hle hout⟩
  · refine Or.inl (io300Flush_same h hle (fun hd => ?_) hout)
    rcases hs hd with h1 | h1
    · exact absurd h1 hout
    · exact h1

theorem flushIfDirty_same (h : Ok C f) (hs : Safe sys f) :
    flushIfDirty C sys f = flushIfDirty C .succeeding f := by
  cases hd : f.dirty with
  | true => simp only [flushIfDirty, hd, if_true, hs.flush h.toWin h.head_le_end hd]
  | false => simp only [flushIfDirty, hd]; rfl

/-! ## Calls that lose nothing -/

section
variable (hsys : sys.WriteFaults)
include hsys

theorem pread_same (os : Os) (n off : ℕ) : pread sys os n off = pread .succeeding os n off := by
  rw [pread, hsys .pread _ (by decide)]; rfl

theorem read_same (os : Os) (n : ℕ) : read sys os n = read .succeeding os n := by
  rw [read, hsys .read _ (by decide)]; rfl

theorem lseek_same (os : Os) (pos : ℤ) : lseek sys os pos = lseek .succeeding os pos := by
  rw [lseek, hsys .lseek _ (by decide)]; rfl

theorem fstat_same (os : Os) : fstat sys os = fstat .succeeding os := by
  rw [fstat, hsys .fstat _ (by decide)]; rfl

theorem close_same (os : Os) : close sys os = close .succeeding os := by
  rw [close, hsys .close _ (by decide)]; rfl

theorem fetch_of_fetchFlush (h : fetchFlush C sys.device f = fetchFlush C .succeeding f) :
    io300Fetch C sys.device f = io300Fetch C .succeeding f := by
  simp only [io300Fetch, h, fetchLoad, Sys.device_pread, pread_same hsys]

/-- **A fetch that loses nothing.** -/
theorem io300Fetch_same (h : Win C f) (hle : f.head ≤ f.cacheEnd) (hs : Safe sys f) :
    io300Fetch C sys.device f = io300Fetch C .succeeding f := by
  apply fetch_of_fetchFlush hsys
  cases hd : f.dirty with
  | true => simp only [fetchFlush, hd, if_true, hs.flush h hle hd]
  | false => simp only [fetchFlush, hd]; rfl

theorem start_same (disk garbage : List UInt8) :
    Session.start C sys disk garbage = Session.start C .succeeding disk garbage := by
  have hfetch : ∀ f : Io300File Os, f.dirty = false →
      io300Fetch C sys.device f = io300Fetch C .succeeding f := by
    intro f hd
    apply fetch_of_fetchFlush hsys
    simp only [fetchFlush, hd]
    rfl
  have hopen : io300Open C sys disk garbage = io300Open C .succeeding disk garbage := by
    have hsize : ∀ sys' : Sys, (∀ os, fstat sys' os = fstat .succeeding os) →
        io300Filesize C sys' ⟨⟨disk, 0, 0⟩, garbage, false, 0, 0, 0, 0, 1⟩ =
          .ok (disk.length, ⟨⟨disk, 0, 1⟩, garbage, false, 0, 0, 0, 0, 1⟩) := by
      intro sys' hstat
      rw [io300Filesize, checkInvariants, if_pos (by simp), hstat]
      rfl
    rw [io300Open, io300Open, hsize sys (fstat_same hsys), hsize .succeeding fun _ => rfl, ok_bind,
      ok_bind]
    simp only
    rw [hfetch _ rfl]
  rw [Session.start, hopen]
  rfl

theorem io300Seek_same (h : Ok C f) (hs : Safe sys f) (pos : ℤ) :
    io300Seek C sys f pos = io300Seek C .succeeding f pos := by
  simp only [io300Seek, flushIfDirty_same h hs, lseek_same hsys, seekLoad, read_same hsys]

theorem io300Close_same (h : Ok C f) (hs : Safe sys f) :
    io300Close C sys f = io300Close C .succeeding f := by
  simp only [io300Close, flushIfDirty_same h hs, close_same hsys]

theorem io300Readc_same (h : Ok C f)
    (hs : (f.head : ℤ) ≤ f.fileSize → f.head = f.cacheEnd → Safe sys f) :
    io300Readc C sys f = io300Readc C .succeeding f := by
  rw [io300Readc, io300Readc]
  by_cases hF : (f.head : ℤ) > f.fileSize
  · simp only [hF, if_true]
  · by_cases he : f.head = f.cacheEnd
    · rw [io300Fetch_same hsys h.toWin he.le (hs (by omega) he)]
    · simp only [he, if_false]

/-- The loop of `io300_read` refills a window that may be dirty only once, when the bytes of the
    present one are used up. -/
theorem io300ReadLoop_same (hC : 0 < C) (sz : ℕ) :
    ∀ (fuel : ℕ) (f : Io300File Os) (buff : List UInt8), Ok C f →
      (f.cacheEnd - f.head < sz - buff.length → Safe sys { f with head := f.cacheEnd }) →
      io300ReadLoop C sys.device fuel f sz buff = io300ReadLoop C .succeeding fuel f sz buff
  | 0, _, _, _, _ => rfl
  | fuel + 1, f, buff, h, hs => by
    rw [io300ReadLoop, io300ReadLoop]
    by_cases hsz : buff.length < sz
    swap
    · simp only [hsz, if_false]
    have hround : ∀ k : Io300File Os, Ok C k → k.head < k.cacheEnd →
        (k.cacheEnd - k.head < sz - buff.length → Safe sys { k with head := k.cacheEnd }) →
        (readCopy C k sz buff >>= fun p => io300ReadLoop C sys.device fuel p.1 sz p.2) =
          readCopy C k sz buff >>= fun p => io300ReadLoop C .succeeding fuel p.1 sz p.2 := by
      intro k hk hlt hsafe
      have h1 := hk.end_le
      have h2 := hk.start_le
      have h3 := hk.cache_len
      set n := min (k.cacheEnd - k.head) (sz - buff.length) with hn
      have hlen : (slice k.cache (k.head - k.cacheStart) n).length = n := by
        rw [length_slice]; omega
      rw [readCopy_eq hk.toWin hlt.le, ok_bind, ok_bind]
      refine io300ReadLoop_same hC sz fuel _ _ (hk.advance (by omega)) fun hlt' => hsafe ?_
      rw [List.length_append, hlen] at hlt'
      simp only at hlt'
      omega
    rw [if_pos hsz, if_pos hsz]
    by_cases he : f.head = f.cacheEnd
    · have hsafe : Safe sys f := by
        have := hs (by omega)
        rwa [← he] at this
      obtain ⟨calls, hfetch⟩ := io300Fetch_eq h.toWin he
      have hok : Ok C (fetched C f calls) := fetched_ok h.cache_len h.dir
      rw [if_pos he, if_pos he, io300Fetch_same hsys h.toWin he.le hsafe, hfetch, ok_bind, ok_bind]
      by_cases hend : (fetched C f calls).head = (fetched C f calls).cacheEnd
      · simp only [hend, if_true]
      · simp only [hend, if_false]
        exact hround _ hok (lt_of_le_of_ne hok.head_le_end hend) fun _ => safe_of_clean rfl
    · rw [if_neg he, if_neg he]
      exact hround f h (lt_of_le_of_ne h.head_le_end he) hs

theorem io300Read_same (hC : 0 < C) (h : Ok C f) (fuel : ℕ) {sz : ℕ}
    (hs : (f.head : ℤ) ≤ f.fileSize → f.cacheEnd - f.head < sz →
      Safe sys { f with head := f.cacheEnd }) :
    io300Read C sys.device fuel f sz = io300Read C .succeeding fuel f sz := by
  rw [io300Read, io300Read]
  by_cases hF : (f.head : ℤ) > f.fileSize
  · simp only [hF, if_true]
  · rw [io300ReadLoop_same hsys hC sz fuel f [] h fun hlt => hs (by omega) hlt]

/-- **Writing a byte** loses nothing, or fails. -/
theorem io300Writec_same (h : Ok C f)
    (hs : f.head = f.cacheEnd →
      if f.head < f.os.data.length then Safe sys { f with os := { f.os with calls := f.os.calls + 1 } }
      else Checked sys { f with os := { f.os with calls := f.os.calls + 1 } }) (ch : ℤ) :
    io300Writec C sys f ch = io300Writec C .succeeding f ch ∨
      ∃ g, io300Writec C sys f ch = .ok (-1, g) := by
  rw [io300Writec, io300Writec]
  by_cases he : f.head = f.cacheEnd
  swap
  · left; simp only [he, if_false]
  have hsize : io300Filesize C sys f =
      .ok (f.os.data.length, { f with os := { f.os with calls := f.os.calls + 1 } }) := by
    rw [← io300Filesize_eq h.toWin he.le, io300Filesize, io300Filesize, fstat_same hsys]
  have hok : Ok C { f with os := { f.os with calls := f.os.calls + 1 } } := h.calls _
  have hsafe := hs he
  rw [checkInvariants_ok h.toWin h.head_le_end, ok_bind, ok_bind, if_pos he, if_pos he, hsize,
    io300Filesize_eq h.toWin he.le, ok_bind, ok_bind]
  simp only
  by_cases hlt : f.head < f.os.data.length
  · rw [if_pos hlt] at hsafe
    rw [if_pos (by exact_mod_cast hlt), if_pos (by exact_mod_cast hlt),
      io300Fetch_same hsys hok.toWin he.le hsafe]
    exact Or.inl rfl
  · rw [if_neg hlt] at hsafe
    rw [if_neg (by exact_mod_cast hlt), if_neg (by exact_mod_cast hlt)]
    rcases hsafe.flush hok.toWin he.le with hsame | ⟨g, hg⟩
    · rw [hsame]
      exact Or.inl rfl
    · rw [hg]
      exact Or.inr ⟨g, rfl⟩

/-- **Making room** loses nothing, or fails. -/
theorem writeRefill_same (h : Loop C f)
    (hs : f.head = f.cacheStart + C → if (f.head : ℤ) < f.fileSize then Safe sys f else Checked sys f)
    (hfull : f.head = f.cacheStart + C → (f.head : ℤ) < f.fileSize → f.head = f.cacheEnd) :
    writeRefill C sys.device f = writeRefill C .succeeding f ∨
      ∃ g, writeRefill C sys.device f = .ok (false, g) := by
  rw [writeRefill, writeRefill]
  by_cases hh : f.head = f.cacheStart + C
  swap
  · left; simp only [hh, if_false]
  have hsafe := hs hh
  rw [if_pos hh, if_pos hh]
  by_cases hF : (f.head : ℤ) < f.fileSize
  · rw [if_pos hF] at hsafe
    rw [if_pos hF, if_pos hF, io300Fetch_same hsys h.toWin (hfull hh hF).le hsafe]
    exact Or.inl rfl
  · rw [if_neg hF] at hsafe
    rw [if_neg hF, if_neg hF]
    have hok := h.bump_ok
    have hchecked : Checked sys (bump C f) := by
      unfold bump
      split_ifs
      · exact hsafe
      · exact hsafe
    rcases hchecked.flush hok.toWin hok.head_le_end with hsame | ⟨g, hg⟩
    · left
      exact congrArg (· >>= _) hsame
    · right
      exact ⟨g, bind_eq_ok.2 ⟨_, hg, rfl⟩⟩

end

/-! ## The condition -/

/-- No round of the loop of `io300_write` loses dirty bytes; a flush that fails ends the loop. -/
def WriteKept (C : ℕ) (sys : Sys) : ℕ → Io300File Os → List UInt8 → Prop
  | 0, _, _ => True
  | fuel + 1, f, buff => buff ≠ [] →
    (f.head = f.cacheStart + C → if (f.head : ℤ) < f.fileSize then Safe sys f else Checked sys f) ∧
    ∀ g k rest, writeRefill C sys.device f = .ok (true, g) → writeCopy C g buff = .ok (k, rest) →
      WriteKept C sys fuel k rest

/-- No flush of the call loses dirty bytes: one whose result is ignored writes all of them, one
    whose result is checked writes all of them or fails. -/
def Kept (C : ℕ) (sys : Sys) (fuel : ℕ) (f : Io300File Os) : Op → Prop
  | .seek _ => Safe sys f
  | .readc => (f.head : ℤ) ≤ f.fileSize → f.head = f.cacheEnd → Safe sys f
  | .read sz => (f.head : ℤ) ≤ f.fileSize → f.cacheEnd - f.head < sz →
      Safe sys { f with head := f.cacheEnd }
  | .writec _ => f.head = f.cacheEnd →
      if f.head < f.os.data.length then Safe sys { f with os := { f.os with calls := f.os.calls + 1 } }
      else Checked sys { f with os := { f.os with calls := f.os.calls + 1 } }
  | .write buff => WriteKept C sys fuel f buff

/-- The call reports success. -/
def Reported (r : Reply) : Op → Prop
  | .seek _ | .writec _ => r.ret ≠ -1
  | .write buff => r.ret = buff.length
  | .readc | .read _ => True

/-- Whatever the call returns reports success. -/
def Succeeds (C : ℕ) (sys : Sys) (fuel : ℕ) (s : Session) (op : Op) : Prop :=
  ∀ r f, call C sys fuel s.f op = .ok (r, f) → Reported r op

section
variable (hsys : sys.WriteFaults)
include hsys

/-- **The loop of `io300_write`** loses nothing, or a flush fails. -/
theorem io300WriteLoop_same (hC : 0 < C) : ∀ (fuel : ℕ) (f : Io300File Os) (buff : List UInt8),
    Loop C f → WindowsFull C f buff.length → WriteKept C sys fuel f buff →
    io300WriteLoop C sys.device fuel f buff = io300WriteLoop C .succeeding fuel f buff ∨
      ∃ g, io300WriteLoop C sys.device fuel f buff = .ok (false, g)
  | 0, _, _, _, _, _ => Or.inl rfl
  | fuel + 1, f, buff, h, hw, hkept => by
    rw [io300WriteLoop, io300WriteLoop]
    by_cases hb : buff = []
    · left; simp only [hb, if_true]
    have hpos := List.length_pos_of_ne_nil hb
    obtain ⟨hsafe, hrest⟩ := hkept hb
    have hfull : f.head = f.cacheStart + C → (f.head : ℤ) < f.fileSize → f.head = f.cacheEnd := by
      intro hh hF
      have := hw 1 le_rfl (by omega) (by rw [one_mul, ← hh]; exact hF)
      rw [if_pos rfl] at this
      omega
    rw [if_neg hb, if_neg hb]
    rcases writeRefill_same hsys h hsafe hfull with hsame | ⟨g, hg⟩
    · obtain ⟨g, hrefill, hready, hiff⟩ := writeRefill_spec hC h hfull
      obtain ⟨bs, rest, rfl, hne, hcopy, hloop, -, -⟩ := writeCopy_spec hready hb
      rw [hrefill] at hsame
      rw [hsame, hrefill, ok_bind, ok_bind]
      simp only [if_true, hcopy, ok_bind]
      exact io300WriteLoop_same hC fuel _ rest hloop (windowsFull_put.2 ((hiff _).2 hw))
        (hrest g _ rest hsame hcopy)
    · right
      exact ⟨g, by rw [hg, ok_bind]; rfl⟩

/-- **A call that loses nothing** is the call without faults, or it returns `-1`. -/
theorem call_same (hC : 0 < C) {s : Session} (h : Ok C s.f) {fuel : ℕ} {op : Op}
    (hw : WritesFull C s op) (hkept : Kept C sys fuel s.f op) :
    call C sys fuel s.f op = call C .succeeding fuel s.f op ∨
      (∃ g, call C sys fuel s.f op = .ok (⟨-1, []⟩, g)) ∧ ∀ r : Reply, r.ret = -1 →
        ¬ Reported r op := by
  cases op with
  | seek pos =>
    left; rw [call, call, io300Seek_same hsys h hkept]
  | readc =>
    left; rw [call, call, io300Readc_same hsys h hkept]
  | read sz =>
    left; rw [call, call, io300Read_same hsys hC h fuel hkept]
  | writec ch =>
    rcases io300Writec_same hsys h hkept ch with hsame | ⟨g, hg⟩
    · left; rw [call, call, hsame]
    · right
      exact ⟨⟨g, by rw [call, hg]; rfl⟩, fun r hr hrep => hrep hr⟩
  | write buff =>
    rcases io300WriteLoop_same hsys hC fuel s.f buff h.loop hw hkept with hsame | ⟨g, hg⟩
    · left; rw [call, call, io300Write, io300Write, hsame]
    · right
      refine ⟨⟨g, ?_⟩, fun r hr hrep => ?_⟩
      · rw [call, io300Write, checkInvariants_ok h.toWin h.head_le_end, ok_bind, hg]; rfl
      · have : r.ret = buff.length := hrep
        omega

/-- **One call of a session** that loses nothing and reports success. -/
theorem step_kept (hC : 0 < C) {s : Session} (h : Good C s)
    (hsized : Sized s.f) {fuel : ℕ} {op : Op}
    (hop : InFile s op) (hfuel : op.size < fuel) (hkept : Kept C sys fuel s.f op)
    (hsucc : Succeeds C sys fuel s op) :
    ∃ s', s.step C sys fuel op = .ok s' ∧ Good C s' ∧ Sized s'.f := by
  have hw : WritesFull C s op := by
    cases op with
    | write buff => exact hsized.windowsFull h.ok buff.length
    | _ => trivial
  rcases call_same hsys hC h.ok hw hkept with hsame | ⟨⟨g, hg⟩, hno⟩
  · rw [Session.step, hsame]
    exact step_sized hC h hsized hop hfuel
  · exact absurd (hsucc _ _ hg) (hno _ rfl)

end

/-! ## Results -/

/-- **Reported success means the data is on disk**, in every session none of whose flushes loses
    dirty bytes; such a session runs to its end. -/
theorem success_durable (hsys : sys.WriteFaults) (disk garbage : List UInt8) (ops : List Op)
    (hC : 0 < C) (hg : garbage.length = C) {fuel : ℕ} (hfuel : ∀ op ∈ ops, op.size < fuel) :
    ∃ s₀, Session.start C sys disk garbage = .ok s₀ ∧ s₀.file = ⟨disk, 0⟩ ∧
      (Meets (Session.step C sys fuel)
          (fun s op => (InFile s op ∧ Succeeds C sys fuel s op) ∧ Kept C sys fuel s.f op) s₀ ops →
        ∃ s, run (Session.step C sys fuel) s₀ ops = .ok s ∧
          (Safe sys s.f → ∃ f, io300Close C sys s.f = .ok (0, f) ∧
            f.os.data = s.file.contents)) := by
  obtain ⟨s₀, hstart, hgood, hsized, -, hfile, -⟩ := start_spec disk hg
  refine ⟨s₀, by rw [start_same hsys, hstart], hfile, fun hmeets => ?_⟩
  have hstep : ∀ (s : Session) op, Good C s ∧ Sized s.f → op.size < fuel →
      (InFile s op ∧ Succeeds C sys fuel s op) ∧ Kept C sys fuel s.f op →
      ∃ s', s.step C sys fuel op = .ok s' ∧ Good C s' ∧ Sized s'.f := by
    rintro s op ⟨h, hs⟩ hop ⟨⟨hin, hsucc⟩, hkept⟩
    exact step_kept hsys hC h hs hin hop hkept hsucc
  obtain ⟨s, hrun, hs, -⟩ := run_ok _ hstep ⟨hgood, hsized⟩ hfuel hmeets
  refine ⟨s, hrun, fun hsafe => ?_⟩
  obtain ⟨f, hf, hdata⟩ := io300Close_spec hs.ok.toWin hs.ok.head_le_end
  exact ⟨f, by rw [io300Close_same hsys hs.ok hsafe, hf], by rw [hdata, hs.contents]⟩

/-- The `pwrite` that is the `n`-th system call ends with `o`, every other system call succeeds. -/
def oneFault (n : ℕ) (o : Outcome) : Sys := ⟨fun c k => if c = .pwrite ∧ k = n then o else .full⟩

theorem oneFault_writeFaults (n : ℕ) (o : Outcome) : (oneFault n o).WriteFaults :=
  fun _ _ hc => if_neg fun h => hc h.1

/-- The first `io300_writec` after a file of three bytes has been read writes only one byte of the
    clean window. -/
theorem success_durable_append : ∃ s₀ s f,
    Session.start 4 (oneFault 3 (.short 1)) [1, 2, 3] [0, 0, 0, 0] = .ok s₀ ∧
    run (Session.step 4 (oneFault 3 (.short 1)) 4) s₀ [.read 3, .writec 97] = .ok s ∧
    io300Close 4 (oneFault 3 (.short 1)) s.f = .ok (0, f) ∧ f.os.data = s.file.contents := by
  obtain ⟨s₀, hstart, -, h⟩ := success_durable (oneFault_writeFaults 3 (.short 1)) [1, 2, 3]
    [0, 0, 0, 0] [.read 3, .writec 97] (by decide) rfl
    (show ∀ op ∈ [Op.read 3, Op.writec 97], op.size < 4 by decide)
  let f₀ : Io300File Os := ⟨⟨[1, 2, 3], 0, 2⟩, [1, 2, 3, 0], false, 0, 0, 3, 3, 1⟩
  let f₁ : Io300File Os := { f₀ with head := 3 }
  let f₂ : Io300File Os := ⟨⟨[1, 2, 3], 0, 4⟩, [97, 2, 3, 0], true, 4, 3, 7, 3, 1⟩
  cases hstart.symm.trans (show Session.start 4 (oneFault 3 (.short 1)) [1, 2, 3] [0, 0, 0, 0] = .ok
    ⟨f₀, ⟨[1, 2, 3], 0⟩⟩ from rfl)
  have hread : call 4 (oneFault 3 (.short 1)) 4 f₀ (.read 3) = .ok (⟨3, [1, 2, 3]⟩, f₁) := rfl
  have hwritec : call 4 (oneFault 3 (.short 1)) 4 f₁ (.writec 97) = .ok (⟨97, []⟩, f₂) := rfl
  have hsteps : Meets (Session.step 4 (oneFault 3 (.short 1)) 4)
      (fun s op => (InFile s op ∧ Succeeds 4 (oneFault 3 (.short 1)) 4 s op) ∧
        Kept 4 (oneFault 3 (.short 1)) 4 s.f op) ⟨f₀, ⟨[1, 2, 3], 0⟩⟩ [.read 3, .writec 97] := by
    refine ⟨⟨⟨trivial, fun r f hr => ?_⟩, fun _ hlt => absurd hlt (by decide)⟩, fun s hs => ?_⟩
    · cases hread.symm.trans hr
      trivial
    · cases hs.symm.trans (show Session.step 4 (oneFault 3 (.short 1)) 4 ⟨f₀, ⟨[1, 2, 3], 0⟩⟩ (.read 3)
        = .ok ⟨f₁, ⟨[1, 2, 3], 3⟩⟩ from rfl)
      refine ⟨⟨⟨trivial, fun r f hr => ?_⟩, fun _ hd => absurd hd (by decide)⟩,
        fun _ _ => trivial⟩
      cases hwritec.symm.trans hr
      exact fun h => absurd h (by decide)
  obtain ⟨s, hrun, hclose⟩ := h hsteps
  cases hrun.symm.trans (show run (Session.step 4 (oneFault 3 (.short 1)) 4) ⟨f₀, ⟨[1, 2, 3], 0⟩⟩
    [.read 3, .writec 97] = .ok ⟨f₂, ⟨[1, 2, 3, 97], 4⟩⟩ from rfl)
  obtain ⟨f, hf, hdata⟩ := hclose fun _ => trivial
  exact ⟨_, _, f, hstart, hrun, hf, hdata⟩

/-- The flush of `io300_close` fails: the byte is lost and `0` is returned. -/
theorem success_loses_byte : ∃ s₀ s f,
    Session.start 4096 (oneFault 4 .fail) [] (List.replicate 4096 0) = .ok s₀ ∧
    Meets (Session.step 4096 (oneFault 4 .fail) 1)
      (fun s op => InFile s op ∧ Succeeds 4096 (oneFault 4 .fail) 1 s op) s₀ [.writec 97] ∧
    run (Session.step 4096 (oneFault 4 .fail) 1) s₀ [.writec 97] = .ok s ∧
    io300Close 4096 (oneFault 4 .fail) s.f = .ok (0, f) ∧
    s.file.contents = [97] ∧ f.os.data = [] := by
  have h : (do
      let s₀ ← Session.start 4096 (oneFault 4 .fail) [] (List.replicate 4096 0)
      let p ← call 4096 (oneFault 4 .fail) 1 s₀.f (.writec 97)
      let q ← io300Close 4096 (oneFault 4 .fail) p.2
      return (s₀.file, p.1, q.1, q.2.os.data)) = .ok (⟨[], 0⟩, ⟨97, []⟩, 0, []) := by decide +kernel
  obtain ⟨s₀, hstart, h⟩ := bind_eq_ok.1 h
  obtain ⟨⟨r, f⟩, hcall, h⟩ := bind_eq_ok.1 h
  obtain ⟨⟨ret, g⟩, hclose, h⟩ := bind_eq_ok.1 h
  obtain ⟨hfile, rfl, rfl, hdata⟩ : s₀.file = ⟨[], 0⟩ ∧ r = ⟨97, []⟩ ∧ ret = 0 ∧
      g.os.data = [] := by
    simpa [pure, Except.pure] using h
  refine ⟨s₀, ⟨f, s₀.file.after (.writec 97) ⟨97, []⟩⟩, g, hstart,
    ⟨⟨trivial, fun r' f' hr => ?_⟩, fun _ _ => trivial⟩, ?_, hclose, ?_, hdata⟩
  · cases hcall.symm.trans hr
    exact fun h => absurd h (by decide)
  · rw [run, Session.step, hcall]
    rfl
  · rw [hfile]
    rfl

end Student

end CProj.FileIO
