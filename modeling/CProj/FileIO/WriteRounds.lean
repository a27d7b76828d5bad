/-
  The loop of `io300_write` over outcomes given beforehand.

  The outcomes of `pread` and `pwrite` are two sequences.  `io300_write` ignores the result of
  `io300_fetch`: in a full window below the cached size that can neither be written back nor be
  replaced, a round changes nothing (`Stalls`); where one of the two succeeds, it moves the window
  on (`Advances`); every other round leads to the end of the loop (`Full.round`).  So the loop runs
  on exactly where all rounds stall or advance and the file is not through (`writeEnds_iff`).
-/
import CProj.FileIO.Student
import CProj.Lib.Run
import CProj.Lib.Fuel
import Mathlib.Data.Nat.Count
import Mathlib.Tactic.Ring

namespace CProj.FileIO.Student

/-! ## Outcomes given beforehand -/

/-- The outcomes of the calls to come: of `pread` the bytes read, of `pwrite` the number of bytes
    written, and `none` for `-1`. -/
structure Outcomes where
  preads : ℕ → Option (List UInt8)
  pwrites : ℕ → Option ℕ

namespace Outcomes

/-- The outcomes after a `pread`. -/
def afterRead (s : Outcomes) : Outcomes := { s with preads := fun i => s.preads (i + 1) }

/-- The outcomes after a `pwrite`. -/
def afterWrite (s : Outcomes) : Outcomes := { s with pwrites := fun i => s.pwrites (i + 1) }

/-- The `i`-th `pread` transfers `n` bytes, if it is asked for so many. -/
def Fills (s : Outcomes) (n i : ℕ) : Prop := ((s.preads i).any fun bs => n ≤ bs.length) = true

instance (s : Outcomes) (n i : ℕ) : Decidable (s.Fills n i) := inferInstanceAs (Decidable (_ = true))

end Outcomes

/-- Every call ends with the next outcome, cut to what was asked for. -/
def outcomes : Device Outcomes where
  pread s n _ := ((s.preads 0).map (List.take n), s.afterRead)
  pwrite s bs _ := ((s.pwrites 0).map (min bs.length), s.afterWrite)

section
variable (C : ℕ) (s : Outcomes) (direction : ℕ)

/-- With the `i`-th outcomes, a round in a full window that has been written to leaves everything
    as it was. -/
def Stalls (i : ℕ) : Prop :=
  s.pwrites i = none ∧ s.preads i = none ∨ direction ≠ 1 ∧ s.Fills C i

/-- With the `i`-th outcomes, such a round moves the window on to the next `C` bytes. -/
def Advances (i : ℕ) : Prop :=
  s.pwrites i ≠ none ∧ s.preads i = none ∨ direction = 1 ∧ s.Fills C i

instance (i : ℕ) : Decidable (Stalls C s direction i) := inferInstanceAs (Decidable (_ ∨ _))

instance : DecidablePred (Advances C s direction) := fun _ => inferInstanceAs (Decidable (_ ∨ _))

/-- `r` bytes are to be written from `B` on, the end of a full window that has been written to.
    The `i`-th round from there stalls or advances, and the rounds before it have not got past the
    cached size `F` or through the bytes. -/
def StuckAt (B : ℕ) (F : ℤ) (r i : ℕ) : Prop :=
  (Stalls C s direction i ∨ Advances C s direction i) ∧
    (B : ℤ) + Nat.count (Advances C s direction) i * C < F ∧
      Nat.count (Advances C s direction) i * C < r

/-- That goes on forever. -/
def Stuck (B : ℕ) (F : ℤ) (r : ℕ) : Prop := ∀ i, StuckAt C s direction B F r i

end

section
variable (C : ℕ) (f : Io300File Outcomes)

/-- The condition under which `io300_write` of `r` bytes runs on: the bytes go past the end of the
    window, which is full of bytes of the file, and the writing gets stuck there.  A window that
    has not been written to is replaced first. -/
def WriteHangs (r : ℕ) : Prop :=
  f.cacheStart + C - f.head < r ∧ f.cacheEnd = f.cacheStart + C ∧
    if f.dirty = true ∨ f.head < f.cacheStart + C then
      Stuck C f.os f.direction f.cacheEnd f.fileSize (r - (f.cacheStart + C - f.head))
    else f.os.Fills C 0 ∧
      if f.direction = 1 then Stuck C f.os.afterRead 1 (f.cacheEnd + C) f.fileSize (r - C)
      else Stuck C f.os.afterRead f.direction f.cacheEnd f.fileSize r

end

/-- A call that returns, or in which an assertion fails. -/
def Returned {α : Type} (r : Except Abort α) : Prop := (∃ a, r = .ok a) ∨ r = .error .assertion

/-! ## Stuck outcomes -/

section
variable {C : ℕ} {s : Outcomes} {d B r : ℕ} {F : ℤ} {bs : List UInt8}

theorem fills_some (hr : s.preads 0 = some bs) : s.Fills C 0 ↔ C ≤ bs.length := by
  simp [Outcomes.Fills, hr]

theorem not_fills_none (hr : s.preads 0 = none) : ¬ s.Fills C 0 := by
  simp [Outcomes.Fills, hr]

theorem Stalls.not_advances {i : ℕ} (h : Stalls C s d i) : ¬ Advances C s d i := by
  rintro (⟨hw, hr⟩ | ⟨rfl, hfill⟩)
  · rcases h with ⟨hw', -⟩ | ⟨-, hfill⟩
    · exact hw hw'
    · simp [Outcomes.Fills, hr] at hfill
  · rcases h with ⟨-, hr⟩ | ⟨hne, -⟩
    · simp [Outcomes.Fills, hr] at hfill
    · exact hne rfl

theorem stuckAt_zero : StuckAt C s d B F r 0 ↔
    (Stalls C s d 0 ∨ Advances C s d 0) ∧ (B : ℤ) < F ∧ 0 < r := by
  simp [StuckAt]

theorem count_advances (i : ℕ) : Nat.count (Advances C s d) (i + 1) =
    Nat.count (Advances C s.afterWrite.afterRead d) i + if Advances C s d 0 then 1 else 0 :=
  Nat.count_succ' _ i

theorem stuckAt_stall (h : Stalls C s d 0) (i : ℕ) :
    StuckAt C s d B F r (i + 1) ↔ StuckAt C s.afterWrite.afterRead d B F r i := by
  rw [StuckAt, count_advances, if_neg h.not_advances]
  rfl

theorem stuckAt_advance (h : Advances C s d 0) (i : ℕ) :
    StuckAt C s d B F r (i + 1) ↔ StuckAt C s.afterWrite.afterRead d (B + C) F (r - C) i := by
  rw [StuckAt, StuckAt, count_advances, if_pos h, Nat.add_mul, Nat.one_mul, Nat.lt_sub_iff_add_lt]
  have hpos (c : ℕ) : (B : ℤ) + ((c + 1 : ℕ) : ℤ) * C = ((B + C : ℕ) : ℤ) + c * C := by
    push_cast
    ring
  rw [hpos]
  exact Iff.rfl

theorem Stuck.pos (h : Stuck C s d B F r) : (B : ℤ) < F ∧ 0 < r := (stuckAt_zero.1 (h 0)).2

theorem Stuck.stall (h : Stuck C s d B F r) (hs : Stalls C s d 0) :
    Stuck C s.afterWrite.afterRead d B F r := fun i => (stuckAt_stall hs i).1 (h (i + 1))

theorem Stuck.advance (h : Stuck C s d B F r) (ha : Advances C s d 0) :
    Stuck C s.afterWrite.afterRead d (B + C) F (r - C) :=
  fun i => (stuckAt_advance ha i).1 (h (i + 1))

end

/-! ## The steps of a round -/

variable {C : ℕ} {σ : Type} {dev : Device σ}

theorem returned_ok {α : Type} (a : α) : Returned (.ok a) := .inl ⟨a, rfl⟩

theorem returned_assertion {α : Type} : Returned (.error .assertion : Except Abort α) := .inr rfl

theorem not_returned_running {α : Type} : ¬ Returned (.error .running : Except Abort α) := by
  rintro (⟨a, h⟩ | h) <;> cases h

section
variable {f g : Io300File σ} {buff : List UInt8}

/-- The invariant that `check_invariants` asserts. -/
structure Held (C : ℕ) (f : Io300File σ) : Prop where
  start_le : f.cacheStart ≤ f.head
  head_le : f.head ≤ f.cacheEnd
  end_le : f.cacheEnd ≤ f.cacheStart + C

theorem held_iff : Held C f ↔ checkInvariants C f = .ok () := by
  rw [checkInvariants]
  constructor
  · rintro ⟨h1, h2, h3⟩
    exact if_pos ⟨⟨h1, h2⟩, by omega⟩
  · intro h
    split_ifs at h with hc
    exact ⟨hc.1.1, hc.1.2, by omega⟩

theorem not_held (h : ¬ Held C f) : checkInvariants C f = .error .assertion := by
  rw [held_iff, checkInvariants] at h
  rw [checkInvariants]
  split_ifs at h ⊢ with hc
  · exact absurd rfl h
  · rfl

/-- The head is in the cache buffer or at its end. -/
structure InBuffer (C : ℕ) (f : Io300File σ) : Prop where
  start_le : f.cacheStart ≤ f.head
  head_le : f.head ≤ f.cacheStart + C

theorem Held.inBuffer (h : Held C f) : InBuffer C f := ⟨h.start_le, h.head_le.trans h.end_le⟩

/-- The `pwrite` of `io300_flush`. -/
def Io300File.writeBack (dev : Device σ) (f : Io300File σ) : Option ℕ × σ :=
  dev.pwrite f.os (slice f.cache 0 (f.head - f.cacheStart)) f.cacheStart

theorem io300Flush_none (h : Held C f) (hw : (f.writeBack dev).1 = none) :
    io300Flush C dev f = .ok (-1, { f with os := (f.writeBack dev).2 }) := by
  have hlen : 0 + (f.head - f.cacheStart) ≤ C := by
    have := h.inBuffer.head_le
    omega
  rw [Io300File.writeBack] at hw
  rw [io300Flush, held_iff.1 h, ok_bind, getCache, if_pos hlen, ok_bind]
  simp only [hw]
  rfl

theorem io300Flush_some (h : Held C f) {n : ℕ} (hw : (f.writeBack dev).1 = some n) :
    io300Flush C dev f = .ok (0, { f with
      os := (f.writeBack dev).2
      cacheStart := f.head
      cacheEnd := f.cacheEnd + C
      dirty := false }) := by
  have hlen : 0 + (f.head - f.cacheStart) ≤ C := by
    have := h.inBuffer.head_le
    omega
  rw [Io300File.writeBack] at hw
  rw [io300Flush, held_iff.1 h, ok_bind, getCache, if_pos hlen, ok_bind]
  simp only [hw]
  rfl

/-- The bytes that the buffer takes after the head. -/
def Io300File.room (C : ℕ) (f : Io300File σ) : ℕ := f.cacheStart + C - f.head

/-- The handle after the copying step of `io300_write`. -/
def Io300File.copied (C : ℕ) (f : Io300File σ) (buff : List UInt8) : Io300File σ :=
  { f with
    cache := store 0 f.cache (f.head - f.cacheStart) (buff.take (f.room C))
    head := f.head + min (f.room C) buff.length
    dirty := true }

theorem writeCopy_copied (h : InBuffer C f) (buff : List UInt8) :
    writeCopy C f buff = .ok (f.copied C buff, buff.drop (f.room C)) := by
  obtain ⟨h1, h2⟩ := h
  have hroom : C - (f.head - f.cacheStart) = f.room C := by
    rw [Io300File.room]
    omega
  rw [writeCopy]
  simp only [hroom, putCache]
  by_cases hlt : buff.length < f.room C
  · have htake : buff.take buff.length = buff.take (f.room C) := by
      rw [List.take_length, List.take_of_length_le hlt.le]
    have hdrop : buff.drop buff.length = buff.drop (f.room C) := by
      rw [List.drop_length, List.drop_of_length_le hlt.le]
    rw [if_pos hlt, htake, hdrop, if_pos (by rw [List.length_take]; omega), ok_bind,
      Io300File.copied, min_eq_right hlt.le]
    rfl
  · rw [if_neg hlt, if_pos (by rw [List.length_take]; omega), ok_bind, Io300File.copied,
      min_eq_left (Nat.le_of_not_lt hlt)]
    rfl

/-! ## Rounds of `io300_write` -/

/-- The loop of `io300_write`, as rounds on a handle and the bytes that remain. -/
def writeRounds (C : ℕ) (dev : Device σ) (n : ℕ) (s : Io300File σ × List UInt8) :
    Except Abort (Bool × Io300File σ) := io300WriteLoop C dev n s.1 s.2

/-- From this handle, the loop of `io300_write` ends. -/
abbrev WriteEnds (C : ℕ) (dev : Device σ) (f : Io300File σ) (buff : List UInt8) : Prop :=
  Gives (writeRounds C dev) Returned (f, buff)

theorem writeRounds_zero (s : Io300File σ × List UInt8) : ¬ Returned (writeRounds C dev 0 s) :=
  not_returned_running

theorem writeEnds_nil (f : Io300File σ) : WriteEnds C dev f [] := ⟨1, returned_ok _⟩

theorem goes_of_refill (hne : buff ≠ []) (h : writeRefill C dev f = .ok (true, g))
    (hg : InBuffer C g) :
    Goes (writeRounds C dev) (f, buff) (g.copied C buff, buff.drop (g.room C)) := by
  intro n
  rw [writeRounds, io300WriteLoop, if_neg hne, h, ok_bind]
  simp only [if_true, writeCopy_copied hg, ok_bind]
  rfl

theorem writeEnds_of_false (h : writeRefill C dev f = .ok (false, g)) : WriteEnds C dev f buff := by
  rcases eq_or_ne buff [] with rfl | hne
  · exact writeEnds_nil f
  · refine ⟨1, ?_⟩
    rw [writeRounds, io300WriteLoop, if_neg hne, h]
    exact returned_ok _

theorem writeEnds_of_assertion (h : writeRefill C dev f = .error .assertion) :
    WriteEnds C dev f buff := by
  rcases eq_or_ne buff [] with rfl | hne
  · exact writeEnds_nil f
  · refine ⟨1, ?_⟩
    rw [writeRounds, io300WriteLoop, if_neg hne, h]
    exact returned_assertion

theorem writeRefill_room (h : f.head ≠ f.cacheStart + C) : writeRefill C dev f = .ok (true, f) :=
  if_neg h

/-- A full window at or above the cached size is written out, which makes the whole buffer free. -/
theorem writeRefill_past (dev : Device σ) (hfull : f.head = f.cacheStart + C)
    (hF : f.fileSize ≤ f.head) :
    writeRefill C dev f = .error .assertion ∨ (∃ g, writeRefill C dev f = .ok (false, g)) ∨
      ∃ g, writeRefill C dev f = .ok (true, g) ∧ g.head = f.head ∧ g.cacheStart = f.head ∧
        g.fileSize = f.fileSize := by
  have hlt : ¬ (f.head : ℤ) < f.fileSize := Int.not_lt.2 hF
  rw [writeRefill, if_pos hfull, if_neg hlt]
  set k := if f.cacheEnd < f.head then { f with cacheEnd := f.cacheStart + C } else f with hk
  have hhead : k.head = f.head := by rw [hk]; split_ifs <;> rfl
  have hsize : k.fileSize = f.fileSize := by rw [hk]; split_ifs <;> rfl
  simp only
  by_cases hheld : Held C k
  swap
  · rw [io300Flush, not_held hheld]
    exact .inl rfl
  rcases hw : (k.writeBack dev).1 with - | n
  · rw [io300Flush_none hheld hw]
    exact .inr (.inl ⟨_, rfl⟩)
  · rw [io300Flush_some hheld hw]
    exact .inr (.inr ⟨_, rfl, hhead, hhead, hsize⟩)

/-- **At or above the cached size** the loop ends: every round writes. -/
theorem writeEnds_past (hC : 0 < C) (hf : InBuffer C f) (hF : f.fileSize ≤ f.head)
    (buff : List UInt8) : WriteEnds C dev f buff := by
  refine gives_of_measure (fun s : Io300File σ × List UInt8 => InBuffer C s.1 ∧
    s.1.fileSize ≤ s.1.head) (fun s => s.2.length) (fun s hs => ?_) (s := (f, buff)) ⟨hf, hF⟩
  obtain ⟨f, buff⟩ := s
  obtain ⟨hf, hF⟩ : InBuffer C f ∧ f.fileSize ≤ f.head := hs
  rcases eq_or_ne buff [] with rfl | hne
  · exact .inl (writeEnds_nil f)
  -- a round that finds or makes room copies a byte at least
  have hround : ∀ g, writeRefill C dev f = .ok (true, g) → InBuffer C g → g.fileSize ≤ g.head →
      0 < g.room C → ∃ t, Goes (writeRounds C dev) (f, buff) t ∧
        (InBuffer C t.1 ∧ t.1.fileSize ≤ t.1.head) ∧ t.2.length < buff.length := by
    intro g hg hin hle hroom
    refine ⟨_, goes_of_refill hne hg hin, ⟨⟨?_, ?_⟩, ?_⟩, ?_⟩
    · exact hin.start_le.trans (Nat.le_add_right _ _)
    · have := hin.head_le
      simp only [Io300File.copied, Io300File.room]
      omega
    · simp only [Io300File.copied]
      omega
    · have := List.length_pos_of_ne_nil hne
      rw [List.length_drop]
      omega
  by_cases hfull : f.head = f.cacheStart + C
  · rcases writeRefill_past dev hfull hF with h | ⟨g, h⟩ | ⟨g, h, hhead, hstart, hsize⟩
    · exact .inl (writeEnds_of_assertion h)
    · exact .inl (writeEnds_of_false h)
    · refine .inr (hround g h ⟨by omega, by omega⟩ (by omega) ?_)
      rw [Io300File.room]
      omega
  · refine .inr (hround f (writeRefill_room hfull) hf hF ?_)
    have := hf.head_le
    rw [Io300File.room]
    omega

/-- A full window below the cached size that does not end at the head fails the assertion of
    `io300_fetch`. -/
theorem writeRefill_misfit (hfull : f.head = f.cacheStart + C) (hF : (f.head : ℤ) < f.fileSize)
    (hend : f.cacheEnd ≠ f.head) : writeRefill C dev f = .error .assertion := by
  have hheld : ¬ Held C f := fun h => hend (by have := h.head_le; have := h.end_le; omega)
  rw [writeRefill, if_pos hfull, if_pos hF, io300Fetch, not_held hheld]
  rfl

/-- **The copying step** ends the loop where the bytes fit, where the window does not reach its
    end, and where it reaches the cached size. -/
theorem writeEnds_copied (hC : 0 < C) (hf : InBuffer C f)
    (h : buff.length ≤ f.room C ∨ f.cacheEnd ≠ f.cacheStart + C ∨ f.fileSize ≤ f.cacheStart + C) :
    WriteEnds C dev (f.copied C buff) (buff.drop (f.room C)) := by
  by_cases hlen : buff.length ≤ f.room C
  · rw [List.drop_of_length_le hlen]
    exact writeEnds_nil _
  have h := h.resolve_left hlen
  have hin := hf.head_le
  have hhead : (f.copied C buff).head = f.cacheStart + C := by
    simp only [Io300File.copied, Io300File.room] at hlen ⊢
    omega
  have hbuf : InBuffer C (f.copied C buff) := ⟨by rw [hhead]; exact Nat.le_add_right _ _, hhead.le⟩
  by_cases hF : f.fileSize ≤ f.cacheStart + C
  · exact writeEnds_past hC hbuf (by rw [hhead]; exact_mod_cast hF) _
  · have hend := h.resolve_right hF
    refine writeEnds_of_assertion (writeRefill_misfit hhead ?_ ?_)
    · rw [hhead]
      exact_mod_cast Int.not_le.1 hF
    · rw [hhead]
      exact hend

end

/-! ## A refill -/

section
variable {f g : Io300File Outcomes} {buff bs : List UInt8} {s : Outcomes} {d B : ℕ} {F : ℤ}

theorem writeBack_outcomes : f.writeBack outcomes =
    ((f.os.pwrites 0).map (min (slice f.cache 0 (f.head - f.cacheStart)).length),
      f.os.afterWrite) := rfl

theorem fetchFlush_clean (hd : f.dirty = false) :
    fetchFlush C outcomes f = .ok { f with cacheStart := f.cacheEnd, head := f.cacheEnd } := by
  rw [fetchFlush, hd]
  rfl

theorem fetchFlush_failed (hf : Held C f) (hd : f.dirty = true) (hw : f.os.pwrites 0 = none) :
    fetchFlush C outcomes f = .ok { f with os := f.os.afterWrite } := by
  have hback : (f.writeBack outcomes).1 = none := by
    rw [writeBack_outcomes, hw]
    rfl
  rw [fetchFlush, if_pos hd, io300Flush_none hf hback]
  rfl

theorem fetchFlush_written (hf : Held C f) (hd : f.dirty = true) (hw : f.os.pwrites 0 ≠ none) :
    fetchFlush C outcomes f = .ok { f with
      os := f.os.afterWrite
      cacheStart := f.head
      cacheEnd := f.cacheEnd + C
      dirty := false } := by
  obtain ⟨n, hn⟩ := Option.ne_none_iff_exists'.1 hw
  have hback : (f.writeBack outcomes).1 =
      some (min (slice f.cache 0 (f.head - f.cacheStart)).length n) := by
    rw [writeBack_outcomes, hn]
    rfl
  rw [fetchFlush, if_pos hd, io300Flush_some hf hback]
  rfl

/-- The handle after the `pread` of `io300_fetch` has read `bs`. -/
def Io300File.loaded (C : ℕ) (g : Io300File Outcomes) (bs : List UInt8) : Io300File Outcomes :=
  { g with
    os := g.os.afterRead
    cache := store 0 g.cache 0 (bs.take (if g.direction = 1 then C else min C g.head))
    cacheStart := if g.direction = 1 then g.head else g.head - C
    cacheEnd := (if g.direction = 1 then g.head else g.head - C) +
      min (if g.direction = 1 then C else min C g.head) bs.length }

theorem io300Fetch_none (hf : Held C f) (hg : fetchFlush C outcomes f = .ok g)
    (h1 : g.cacheStart ≤ g.head) (h2 : g.head ≤ g.cacheEnd) (hr : g.os.preads 0 = none) :
    io300Fetch C outcomes f = .ok (-1, { g with os := g.os.afterRead }) := by
  rw [io300Fetch, held_iff.1 hf, ok_bind, hg, ok_bind]
  simp only [if_neg (Nat.not_lt.2 h1), if_neg (Nat.not_lt.2 h2), fetchLoad, outcomes, hr]
  exact ite_self _

theorem io300Fetch_some (hf : Held C f) (hg : fetchFlush C outcomes f = .ok g)
    (h1 : g.cacheStart ≤ g.head) (h2 : g.head ≤ g.cacheEnd) (hr : g.os.preads 0 = some bs) :
    io300Fetch C outcomes f = .ok (0, g.loaded C bs) := by
  rw [io300Fetch, held_iff.1 hf, ok_bind, hg, ok_bind]
  simp only [if_neg (Nat.not_lt.2 h1), if_neg (Nat.not_lt.2 h2), fetchLoad, outcomes, hr,
    Option.map_some, putCache]
  by_cases hd : g.direction = 1
  · have hsub : g.head + C - g.head = C := Nat.add_sub_cancel_left _ _
    simp only [if_pos hd, Io300File.loaded, hsub, List.length_take]
    rw [if_pos (by omega)]
    rfl
  · have hsub : g.head - (g.head - C) = min C g.head := by omega
    simp only [if_neg hd, Io300File.loaded, hsub, List.length_take]
    rw [if_pos (by omega)]
    rfl

/-- The window is full of bytes of the file up to `B`, where the head stands, below the cached
    size `F`. -/
structure Full (C : ℕ) (s : Outcomes) (d B : ℕ) (F : ℤ) (f : Io300File Outcomes) : Prop where
  head : f.head = B
  start : f.cacheStart + C = B
  stop : f.cacheEnd = B
  os : f.os = s
  direction : f.direction = d
  fileSize : f.fileSize = F
  below : (B : ℤ) < F

theorem Full.held (h : Full C s d B F f) : Held C f := by
  obtain ⟨h1, h2, h3, -, -, -, -⟩ := h
  exact ⟨by omega, by omega, by omega⟩

theorem Full.refill (h : Full C s d B F f) {r : ℤ} (hg : io300Fetch C outcomes f = .ok (r, g)) :
    writeRefill C outcomes f = .ok (true, g) := by
  have hlt : (f.head : ℤ) < f.fileSize := by
    rw [h.head, h.fileSize]
    exact h.below
  rw [writeRefill, if_pos (h.head.trans h.start.symm), if_pos hlt, hg]
  rfl

/-- The handle `g` after the refill of a full window, with the outcomes `s` to come. -/
structure Refilled (C : ℕ) (s : Outcomes) (f g : Io300File Outcomes) : Prop where
  refill : writeRefill C outcomes f = .ok (true, g)
  inBuffer : InBuffer C g
  head : g.head = f.head
  os : g.os = s
  direction : g.direction = f.direction
  fileSize : g.fileSize = f.fileSize

/-- The window reaches over the whole buffer, up to `stop`. -/
structure Whole (C stop : ℕ) (g : Io300File σ) : Prop where
  start : g.cacheStart + C = stop
  stop : g.cacheEnd = stop

/-- The handle `g` after the write-back in front of the refill. -/
structure Flushed (C : ℕ) (s : Outcomes) (f g : Io300File Outcomes) : Prop where
  flush : fetchFlush C outcomes f = .ok g
  inBuffer : InBuffer C g
  le : g.head ≤ g.cacheEnd
  head : g.head = f.head
  os : g.os = s
  direction : g.direction = f.direction
  fileSize : g.fileSize = f.fileSize

theorem Full.refilled_none (h : Full C s d B F f) {s' : Outcomes} (hg : Flushed C s' f g)
    (hr : s'.preads 0 = none) :
    Refilled C s'.afterRead f { g with os := g.os.afterRead } := by
  refine ⟨h.refill (io300Fetch_none h.held hg.flush hg.inBuffer.start_le hg.le ?_), ?_, hg.head, ?_,
    hg.direction, hg.fileSize⟩
  · rw [hg.os, hr]
  · exact ⟨hg.inBuffer.start_le, hg.inBuffer.head_le⟩
  · rw [hg.os]

/-- Where the `pread` of the refill reads `bs`, the window is the one after the head, or going
    backwards the one before it, as far as `bs` reaches. -/
theorem Full.refilled_some (h : Full C s d B F f) {s' : Outcomes} (hg : Flushed C s' f g)
    (hr : s'.preads 0 = some bs) :
    Refilled C s'.afterRead f (g.loaded C bs) ∧
      (C ≤ bs.length → Whole C (if d = 1 then B + C else B) (g.loaded C bs)) ∧
      (bs.length < C → (g.loaded C bs).cacheEnd ≠ (g.loaded C bs).cacheStart + C) := by
  have hhead : g.head = B := hg.head.trans h.head
  have hd : g.direction = d := hg.direction.trans h.direction
  have hstart := h.start
  refine ⟨⟨h.refill (io300Fetch_some h.held hg.flush hg.inBuffer.start_le hg.le ?_), ⟨?_, ?_⟩,
    hg.head, ?_, hg.direction, hg.fileSize⟩, fun hle => ⟨?_, ?_⟩, fun hlt => ?_⟩
  · rw [hg.os, hr]
  · simp only [Io300File.loaded]
    split_ifs <;> omega
  · simp only [Io300File.loaded]
    split_ifs <;> omega
  · simp only [Io300File.loaded, hg.os]
  · simp only [Io300File.loaded, hd, hhead]
    split_ifs <;> omega
  · simp only [Io300File.loaded, hd, hhead]
    split_ifs <;> omega
  · simp only [Io300File.loaded, hd, hhead]
    split_ifs <;> omega

/-- **The refill of a window that has been written to**, below the cached size. -/
theorem Full.refilled_dirty (h : Full C s d B F f) (hdirty : f.dirty = true) :
    ∃ g, Refilled C s.afterWrite.afterRead f g ∧
      (Stalls C s d 0 ∧ Whole C B g ∨ Advances C s d 0 ∧ Whole C (B + C) g ∨
        ¬ Stalls C s d 0 ∧ ¬ Advances C s d 0 ∧ g.cacheEnd ≠ g.cacheStart + C) := by
  obtain ⟨g, hg, hfail, hdone⟩ : ∃ g, Flushed C s.afterWrite f g ∧
      (s.pwrites 0 = none → Whole C B g) ∧ (s.pwrites 0 ≠ none → Whole C (B + C) g) := by
    have hin := h.held.inBuffer
    by_cases hw : s.pwrites 0 = none
    · refine ⟨_, ⟨fetchFlush_failed h.held hdirty (by rw [h.os, hw]), ⟨hin.start_le, hin.head_le⟩,
        h.held.head_le, rfl, by rw [h.os], rfl, rfl⟩, fun _ => ⟨h.start, h.stop⟩,
        fun hne => absurd hw hne⟩
    · refine ⟨_, ⟨fetchFlush_written h.held hdirty (by rwa [h.os]),
        ⟨le_rfl, Nat.le_add_right _ _⟩,
        h.held.head_le.trans (Nat.le_add_right _ _), rfl, by rw [h.os], rfl, rfl⟩,
        fun hnone => absurd hnone hw, fun _ => ⟨by rw [h.head], by rw [h.stop]⟩⟩
  rcases hr : s.preads 0 with - | bs
  · have hr' : s.afterWrite.preads 0 = none := hr
    refine ⟨_, h.refilled_none hg hr', ?_⟩
    by_cases hw : s.pwrites 0 = none
    · obtain ⟨h1, h2⟩ := hfail hw
      exact .inl ⟨.inl ⟨hw, hr⟩, h1, h2⟩
    · obtain ⟨h1, h2⟩ := hdone hw
      exact .inr (.inl ⟨.inl ⟨hw, hr⟩, h1, h2⟩)
  · have hr' : s.afterWrite.preads 0 = some bs := hr
    obtain ⟨hrefilled, hwhole, hcut⟩ := h.refilled_some hg hr'
    refine ⟨_, hrefilled, ?_⟩
    by_cases hfill : C ≤ bs.length
    · by_cases hd : d = 1
      · have := hwhole hfill
        rw [if_pos hd] at this
        exact .inr (.inl ⟨.inr ⟨hd, (fills_some hr).2 hfill⟩, this⟩)
      · have := hwhole hfill
        rw [if_neg hd] at this
        exact .inl ⟨.inr ⟨hd, (fills_some hr).2 hfill⟩, this⟩
    · refine .inr (.inr ⟨?_, ?_, hcut (Nat.lt_of_not_le hfill)⟩)
      · rintro (⟨-, hnone⟩ | ⟨-, hf⟩)
        · rw [hr] at hnone
          cases hnone
        · exact hfill ((fills_some hr).1 hf)
      · rintro (⟨-, hnone⟩ | ⟨-, hf⟩)
        · rw [hr] at hnone
          cases hnone
        · exact hfill ((fills_some hr).1 hf)

/-! ## The loop of `io300_write` -/

theorem Refilled.writeEnds_iff {s : Outcomes} (h : Refilled C s f g) (hne : buff ≠ []) :
    WriteEnds C outcomes f buff ↔ WriteEnds C outcomes (g.copied C buff) (buff.drop (g.room C)) :=
  (goes_of_refill hne h.refill h.inBuffer).gives_iff (writeRounds_zero _)

theorem Whole.full_copied {stop : ℕ} (h : Whole C stop g) (hin : InBuffer C g) (buff : List UInt8)
    (hlen : g.room C < buff.length) (hF : (stop : ℤ) < g.fileSize) :
    Full C g.os g.direction stop g.fileSize (g.copied C buff) := by
  refine ⟨?_, h.start, h.stop, rfl, rfl, rfl, hF⟩
  have := hin.head_le
  have := h.start
  simp only [Io300File.copied, Io300File.room] at hlen ⊢
  omega

/-- **A round of a full window that has been written to**: it stalls, it advances, with the bytes
    or the file at an end or not, or it ends the loop. -/
theorem Full.round (hC : 0 < C) (h : Full C s d B F f) (hdirty : f.dirty = true) (hne : buff ≠ []) :
    (Stalls C s d 0 ∧ ∃ g, Goes (writeRounds C outcomes) (f, buff) (g, buff) ∧
      Full C s.afterWrite.afterRead d B F g ∧ g.dirty = true) ∨
    (Advances C s d 0 ∧ C < buff.length ∧ ∃ g,
      Goes (writeRounds C outcomes) (f, buff) (g, buff.drop C) ∧
        Full C s.afterWrite.afterRead d (B + C) F g ∧ g.dirty = true) ∨
    (WriteEnds C outcomes f buff ∧
      (¬ Stalls C s d 0 ∧ ¬ Advances C s d 0 ∨
        Advances C s d 0 ∧ (buff.length ≤ C ∨ F ≤ (B + C : ℕ)))) := by
  obtain ⟨g, hg, hcases⟩ := h.refilled_dirty hdirty
  have hgoes := goes_of_refill hne hg.refill hg.inBuffer
  have hends := hg.writeEnds_iff hne
  obtain rfl := hg.direction.trans h.direction
  obtain rfl := hg.fileSize.trans h.fileSize
  have hdisk := hg.os
  rcases hcases with ⟨hs, hw⟩ | ⟨ha, hw⟩ | ⟨hs, ha, hcut⟩
  · have hroom : g.room C = 0 := by
      rw [Io300File.room, hw.start, hg.head, h.head, Nat.sub_self]
    have hfull := hw.full_copied hg.inBuffer buff
      (by rw [hroom]; exact List.length_pos_of_ne_nil hne) h.below
    rw [hroom, List.drop_zero] at hgoes
    exact .inl ⟨hs, _, hgoes, hdisk ▸ hfull, rfl⟩
  · have hroom : g.room C = C := by
      rw [Io300File.room, hw.start, hg.head, h.head, Nat.add_sub_cancel_left]
    by_cases hend : buff.length ≤ C ∨ g.fileSize ≤ (B + C : ℕ)
    · refine .inr (.inr ⟨hends.2 (writeEnds_copied hC hg.inBuffer ?_), .inr ⟨ha, hend⟩⟩)
      rcases hend with hlen | hF
      · exact .inl (hroom.symm ▸ hlen)
      · refine .inr (.inr ?_)
        rw [← hw.start] at hF
        exact_mod_cast hF
    · obtain ⟨hlen, hF⟩ := not_or.1 hend
      have hfull := hw.full_copied hg.inBuffer buff (by rw [hroom]; exact Nat.lt_of_not_le hlen)
        (Int.not_le.1 hF)
      rw [hroom] at hgoes
      exact .inr (.inl ⟨ha, Nat.lt_of_not_le hlen, _, hgoes, hdisk ▸ hfull, rfl⟩)
  · exact .inr (.inr ⟨hends.2 (writeEnds_copied hC hg.inBuffer (.inr (.inl hcut))), .inl ⟨hs, ha⟩⟩)

/-- A loop that is not stuck in its `i`-th round ends. -/
theorem Full.writeEnds_of_not_stuckAt (hC : 0 < C) {i : ℕ} (h : Full C s d B F f)
    (hdirty : f.dirty = true) (hi : ¬ StuckAt C s d B F buff.length i) :
    WriteEnds C outcomes f buff := by
  induction i generalizing s B f buff with
  | zero =>
    rcases eq_or_ne buff [] with rfl | hne
    · exact writeEnds_nil f
    have hpos := List.length_pos_of_ne_nil hne
    rcases h.round hC hdirty hne with ⟨hs, -⟩ | ⟨ha, -⟩ | ⟨hends, -⟩
    · exact absurd (stuckAt_zero.2 ⟨.inl hs, h.below, hpos⟩) hi
    · exact absurd (stuckAt_zero.2 ⟨.inr ha, h.below, hpos⟩) hi
    · exact hends
  | succ i ih =>
    rcases eq_or_ne buff [] with rfl | hne
    · exact writeEnds_nil f
    rcases h.round hC hdirty hne with ⟨hs, g, hgoes, hg, hd⟩ | ⟨ha, -, g, hgoes, hg, hd⟩ | ⟨hends, -⟩
    · exact hgoes.gives (ih hg hd (by rwa [← stuckAt_stall hs]))
    · refine hgoes.gives (ih hg hd ?_)
      rwa [List.length_drop, ← stuckAt_advance ha]
    · exact hends

/-- A stuck loop runs on: every round of it leads to a stuck one. -/
theorem Full.runs_on (hC : 0 < C) (h : Full C s d B F f) (hdirty : f.dirty = true)
    (hstuck : Stuck C s d B F buff.length) (n : ℕ) :
    writeRounds C outcomes n (f, buff) = .error .running := by
  refine CProj.runs_on (fun p : Io300File Outcomes × List UInt8 => ∃ s B,
    Full C s d B F p.1 ∧ p.1.dirty = true ∧ Stuck C s d B F p.2.length)
    (fun _ _ => rfl) (fun p hp => ?_) ⟨s, B, h, hdirty, hstuck⟩ n
  obtain ⟨s, B, h, hdirty, hstuck⟩ := hp
  have hne : p.2 ≠ [] := List.ne_nil_of_length_pos hstuck.pos.2
  rcases h.round hC hdirty hne with ⟨hs, g, hgoes, hg, hd⟩ | ⟨ha, -, g, hgoes, hg, hd⟩ |
    ⟨-, ⟨hs, ha⟩ | ⟨ha, hend⟩⟩
  · exact ⟨_, hgoes, _, B, hg, hd, hstuck.stall hs⟩
  · refine ⟨_, hgoes, _, B + C, hg, hd, ?_⟩
    rw [List.length_drop]
    exact hstuck.advance ha
  · exact absurd (stuckAt_zero.1 (hstuck 0)).1 (not_or.2 ⟨hs, ha⟩)
  · have := (hstuck.advance ha).pos
    omega

/-- **The loop in a full window that has been written to.** -/
theorem Full.writeEnds_iff (hC : 0 < C) (h : Full C s d B F f) (hdirty : f.dirty = true) :
    WriteEnds C outcomes f buff ↔ ¬ Stuck C s d B F buff.length := by
  constructor
  · rintro ⟨n, hn⟩ hstuck
    rw [h.runs_on hC hdirty hstuck n] at hn
    exact not_returned_running hn
  · intro hstuck
    obtain ⟨i, hi⟩ := not_forall.1 hstuck
    exact h.writeEnds_of_not_stuckAt hC hdirty hi

/-- **The loop from the copying step on.** -/
theorem writeEnds_copied_iff (hC : 0 < C) (hg : InBuffer C g) :
    WriteEnds C outcomes (g.copied C buff) (buff.drop (g.room C)) ↔
      ¬ (g.room C < buff.length ∧ g.cacheEnd = g.cacheStart + C ∧
        Stuck C g.os g.direction g.cacheEnd g.fileSize (buff.length - g.room C)) := by
  by_cases hlen : g.room C < buff.length
  swap
  · exact iff_of_true (writeEnds_copied hC hg (.inl (Nat.le_of_not_lt hlen))) fun h => hlen h.1
  by_cases hend : g.cacheEnd = g.cacheStart + C
  swap
  · exact iff_of_true (writeEnds_copied hC hg (.inr (.inl hend))) fun h => hend h.2.1
  by_cases hF : (g.cacheEnd : ℤ) < g.fileSize
  swap
  · refine iff_of_true (writeEnds_copied hC hg (.inr (.inr ?_))) fun h => hF h.2.2.pos.1
    rw [hend] at hF
    exact_mod_cast Int.not_lt.1 hF
  have hfull := Whole.full_copied (C := C) ⟨hend.symm, rfl⟩ hg buff hlen hF
  rw [hfull.writeEnds_iff hC rfl, List.length_drop]
  tauto

/-- **The loop in a full window that has not been written to**, which is replaced first. -/
theorem Full.writeEnds_iff_clean (hC : 0 < C) (h : Full C s d B F f) (hdirty : f.dirty = false)
    (hne : buff ≠ []) : WriteEnds C outcomes f buff ↔
      ¬ (s.Fills C 0 ∧ if d = 1 then Stuck C s.afterRead 1 (B + C) F (buff.length - C)
        else Stuck C s.afterRead d B F buff.length) := by
  have hflushed : Flushed C s f { f with cacheStart := f.cacheEnd, head := f.cacheEnd } :=
    ⟨fetchFlush_clean hdirty, ⟨le_rfl, Nat.le_add_right _ _⟩, le_rfl, h.stop.trans h.head.symm,
      h.os, rfl, rfl⟩
  rcases hr : s.preads 0 with - | bs
  · have hg := h.refilled_none hflushed hr
    refine iff_of_true ((hg.writeEnds_iff hne).2 (writeEnds_copied hC hg.inBuffer (.inr (.inl ?_))))
      fun hfill => not_fills_none hr hfill.1
    simp only
    omega
  obtain ⟨g, hg, hwhole, hcut⟩ : ∃ g, Refilled C s.afterRead f g ∧
      (C ≤ bs.length → Whole C (if d = 1 then B + C else B) g) ∧
      (bs.length < C → g.cacheEnd ≠ g.cacheStart + C) := ⟨_, h.refilled_some hflushed hr⟩
  rw [hg.writeEnds_iff hne, fills_some hr]
  by_cases hfill : C ≤ bs.length
  swap
  · exact iff_of_true (writeEnds_copied hC hg.inBuffer (.inr (.inl (hcut (Nat.lt_of_not_le hfill)))))
      fun h => hfill h.1
  have hw := hwhole hfill
  rw [writeEnds_copied_iff hC hg.inBuffer, hg.os, hg.direction, hg.fileSize, h.direction,
    h.fileSize, Io300File.room, hw.start, hw.stop, hg.head, h.head]
  have hlen := List.length_pos_of_ne_nil hne
  by_cases hd : d = 1
  · rw [if_pos hd, if_pos hd, Nat.add_sub_cancel_left, hd]
    constructor
    · exact fun hn hs => hn ⟨by have := hs.2.pos.2; omega, rfl, hs.2⟩
    · exact fun hn hs => hn ⟨hfill, hs.2.2⟩
  · rw [if_neg hd, if_neg hd, Nat.sub_self, Nat.sub_zero]
    constructor
    · exact fun hn hs => hn ⟨hlen, rfl, hs.2⟩
    · exact fun hn hs => hn ⟨hfill, hs.2.2⟩

/-- **The loop of `io300_write`** ends unless it hangs. -/
theorem writeEnds_iff (hC : 0 < C) (hf : Held C f) :
    WriteEnds C outcomes f buff ↔ ¬ WriteHangs C f buff.length := by
  rcases eq_or_ne buff [] with rfl | hne
  · exact iff_of_true (writeEnds_nil f) fun h => absurd h.1 (Nat.not_lt_zero _)
  have h1 := hf.start_le
  have h2 := hf.head_le
  have h3 := hf.end_le
  rw [WriteHangs]
  by_cases hroom : f.head < f.cacheStart + C
  · -- the window is not full yet
    have hgoes : Goes (writeRounds C outcomes) (f, buff) _ :=
      goes_of_refill hne (writeRefill_room hroom.ne) hf.inBuffer
    rw [if_pos (Or.inr hroom)]
    exact (hgoes.gives_iff (writeRounds_zero _)).trans (writeEnds_copied_iff hC hf.inBuffer)
  have hfull : f.head = f.cacheStart + C := by omega
  have hzero : f.cacheStart + C - f.head = 0 := by omega
  rw [hzero]
  by_cases hF : (f.cacheEnd : ℤ) < f.fileSize
  swap
  · -- it is at or above the cached size
    refine iff_of_true (writeEnds_past hC hf.inBuffer (by omega) _) ?_
    rintro ⟨-, -, h⟩
    split_ifs at h
    · exact hF h.pos.1
    · have := h.2.pos.1
      omega
    · exact hF h.2.pos.1
  have hwhole : Full C f.os f.direction f.cacheEnd f.fileSize f :=
    ⟨by omega, by omega, rfl, rfl, rfl, rfl, hF⟩
  have hpos := List.length_pos_of_ne_nil hne
  by_cases hdirty : f.dirty = true
  · rw [hwhole.writeEnds_iff hC hdirty, if_pos (Or.inl hdirty), Nat.sub_zero]
    have : f.cacheEnd = f.cacheStart + C := by omega
    tauto
  -- it has not been written to, and is replaced first
  rw [if_neg (not_or.2 ⟨hdirty, hroom⟩), hwhole.writeEnds_iff_clean hC (eq_false_of_ne_true hdirty) hne]
  have : f.cacheEnd = f.cacheStart + C := by omega
  tauto

end

end CProj.FileIO.Student
