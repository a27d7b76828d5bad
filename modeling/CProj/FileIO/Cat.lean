/-
  The programs that copy a file, on `student.c`: `byte_cat.c`, `diabolical_byte_cat.c`,
  `block_cat.c` and `random_block_cat.c`.

  When `p` bytes have been copied, both handles stand at `p` (`CopiedTo`), and the output is
  `overlay`: the input up to `p`, and behind it what the output file held before.
-/
import CProj.FileIO.Handles
import CProj.FileIO.Programs

namespace CProj.FileIO.Student

variable {C fuel : ℕ} {inf outf : Io300File Os} {D E : List UInt8} {p : ℕ}

/-- The file `E` with the first `p` bytes of `D` in front. -/
def overlay (D E : List UInt8) (p : ℕ) : List UInt8 := D.take p ++ E.drop p

theorem overlay_zero : overlay D E 0 = E := by
  rw [overlay, List.take_zero, List.drop_zero, List.nil_append]

theorem overlay_all : overlay D E D.length = D ++ E.drop D.length := by
  rw [overlay, List.take_length]

/-- The next bytes of `D`, stored behind those that are there. -/
theorem store_overlay (hp : p ≤ D.length) (n : ℕ) :
    store 0 (overlay D E p) p (slice D p n) = overlay D E (p + (slice D p n).length) := by
  rcases eq_or_ne (slice D p n) [] with hnil | hne
  · rw [hnil]
    rfl
  · have hlen : (D.take p).length = p := by
      rw [List.length_take]
      omega
    have htake : D.take (p + (slice D p n).length) = D.take p ++ slice D p n := by
      have hself : slice D p (slice D p n).length = slice D p n := by
        rw [length_slice, slice_min_length]
      rw [List.take_add]
      exact congrArg (D.take p ++ ·) hself
    have hdrop : (overlay D E p).drop (p + (slice D p n).length) = E.drop (p + (slice D p n).length) := by
      rw [overlay, List.drop_append, List.drop_eq_nil_of_le (by omega), List.nil_append, hlen,
        List.drop_drop]
      congr 1
      omega
    have hfront : (overlay D E p ++ List.replicate (p - (overlay D E p).length) 0).take p = D.take p := by
      rw [overlay, List.append_assoc, List.take_append_of_le_length hlen.ge,
        List.take_of_length_le hlen.le]
    rw [store_ne_nil hne, hdrop, hfront, ← htake]
    rfl

/-- The first `p` bytes have been copied. -/
structure CopiedTo (C : ℕ) (D E : List UInt8) (p : ℕ) (inf outf : Io300File Os) : Prop where
  input : At C inf D p
  sees : Sees inf
  output : At C outf (overlay D E p) p
  le : p ≤ D.length

theorem CopiedTo.start {inCache outCache : List UInt8} (hin : inCache.length = C)
    (hout : outCache.length = C) : ∃ inf inf' outf, io300Open C .succeeding D inCache = .ok inf ∧
      io300Filesize C .succeeding inf = .ok (D.length, inf') ∧
      io300Open C .succeeding E outCache = .ok outf ∧ CopiedTo C D E 0 inf outf ∧
      CopiedTo C D E 0 inf' outf := by
  obtain ⟨inf, hopen, hat, hs, inf', hsize, hat', hs'⟩ := open_at D hin
  obtain ⟨outf, hopen', hout', -⟩ := open_at E hout
  rw [← overlay_zero (D := D) (E := E)] at hout'
  exact ⟨inf, inf', outf, hopen, hsize, hopen', ⟨hat, hs, hout', Nat.zero_le _⟩,
    ⟨hat', hs', hout', Nat.zero_le _⟩⟩

/-- Both files are closed. -/
theorem CopiedTo.close (h : CopiedTo C D E p inf outf) (status : ℤ) :
    (do let _ ← io300Close C .succeeding inf
        let (_, outf) ← io300Close C .succeeding outf
        return (status, outf.os.data)) =
      (.ok (status, overlay D E p) : Except Abort (ℤ × List UInt8)) := by
  obtain ⟨g, hclose, -⟩ := h.input.close
  obtain ⟨g', hclose', hdata⟩ := h.output.close
  rw [hclose, ok_bind, hclose', ok_bind]
  simp only [hdata]
  rfl

/-! ## Blocks -/

/-- One block. -/
theorem CopiedTo.block (hC : 0 < C) (h : CopiedTo C D E p inf outf) {sz : ℕ} (hfuel : sz < fuel) :
    ∃ inf' outf', io300Read C .succeeding fuel inf sz =
        .ok ((((slice D p sz).length : ℤ), slice D p sz), inf') ∧
      io300Write C .succeeding fuel outf (slice D p sz) = .ok (((slice D p sz).length : ℤ), outf') ∧
      CopiedTo C D E (p + (slice D p sz).length) inf' outf' ∧ At C inf' D (p + (slice D p sz).length) := by
  have hlen : (slice D p sz).length = min sz (D.length - p) := length_slice ..
  obtain ⟨inf', hread, hat, hs⟩ := h.input.read hC h.sees h.le hfuel
  obtain ⟨outf', hwrite, hat', -⟩ := h.output.write hC
    (show (slice D p sz).length < fuel by omega)
  rw [store_overlay h.le] at hat'
  exact ⟨inf', outf', hread, hwrite, ⟨hat, hs, hat', by have := h.le; omega⟩, hat⟩

/-- **The loop of the block programs** copies the rest of the input, whatever the sizes of the blocks. -/
theorem blockLoop_spec (hC : 0 < C) (size : ℕ → ℕ) (hsize : ∀ k, 0 < size k ∧ size k < fuel) :
    ∀ (n k : ℕ) {p : ℕ} {inf outf : Io300File Os}, CopiedTo C D E p inf outf → D.length - p < n →
      ∃ inf' outf', blockLoop C .succeeding fuel size n k 0 inf outf = .ok (0, inf', outf') ∧
        CopiedTo C D E D.length inf' outf'
  | 0, _, _, _, _, _, hn => absurd hn (by omega)
  | n + 1, k, p, inf, outf, h, hn => by
    have hlen : (slice D p (size k)).length = min (size k) (D.length - p) := length_slice ..
    obtain ⟨hpos, hlt⟩ := hsize k
    have hle := h.le
    obtain ⟨inf', outf', hread, hwrite, hcopied, -⟩ := h.block hC hlt
    rw [blockLoop, hread, ok_bind]
    by_cases hend : D.length ≤ p
    · have hp : D.length = p := by omega
      have hzero : (slice D p (size k)).length = 0 := by omega
      rw [hzero, Nat.add_zero] at hcopied
      refine ⟨inf', outf, by simp [hzero]; rfl, ?_⟩
      rw [hp]
      exact ⟨hcopied.input, hcopied.sees, h.output, h.le⟩
    · simp only [show ¬ (((slice D p (size k)).length : ℤ) = 0 ∨
        ((slice D p (size k)).length : ℤ) = -1) by omega, if_false]
      rw [hwrite, ok_bind]
      simp only [show ¬ ((slice D p (size k)).length : ℤ) = -1 by omega, if_false]
      exact blockLoop_spec hC size hsize n (k + 1) hcopied (by omega)

/-- `block_cat` with a buffer of no bytes copies nothing. -/
theorem blockLoop_zero (hC : 0 < C) (h : CopiedTo C D E p inf outf) (n k : ℕ) (hfuel : 0 < fuel) :
    ∃ inf', blockLoop C .succeeding fuel (fun _ => 0) (n + 1) k 0 inf outf = .ok (0, inf', outf) ∧
      CopiedTo C D E p inf' outf := by
  obtain ⟨inf', outf', hread, -, hcopied, -⟩ := h.block hC hfuel
  have hzero : (slice D p 0).length = 0 := by rw [length_slice, Nat.zero_min]
  rw [hzero, Nat.add_zero] at hcopied
  refine ⟨inf', ?_, ⟨hcopied.input, hcopied.sees, h.output, h.le⟩⟩
  rw [blockLoop, hread, ok_bind]
  simp [hzero]
  rfl

/-! ## Bytes -/

/-- One byte. -/
theorem CopiedTo.byte (hC : 0 < C) (h : CopiedTo C D E p inf outf) (hp : p < D.length) :
    ∃ inf' outf', io300Readc C .succeeding inf = .ok ((D[p].toNat : ℤ), inf') ∧
      io300Writec C .succeeding outf (D[p].toNat : ℤ) = .ok ((D[p].toNat : ℤ), outf') ∧
      CopiedTo C D E (p + 1) inf' outf' := by
  obtain ⟨inf', hread, hat, hs⟩ := h.input.readc hC h.sees hp
  obtain ⟨outf', hwrite, hat', -⟩ := h.output.writec hC (D[p].toNat : ℤ)
  have hslice : slice D p 1 = [D[p]] := by
    rw [slice, List.drop_eq_getElem_cons hp, List.take_succ_cons, List.take_zero]
  have hstore := store_overlay (E := E) h.le 1
  rw [hslice] at hstore
  rw [toChar_toNat, hstore] at hat'
  exact ⟨inf', outf', hread, hwrite, ⟨hat, hs, hat', hp⟩⟩

theorem byteLoop_spec (hC : 0 < C) : ∀ (n : ℕ) {p : ℕ} {inf outf : Io300File Os},
    CopiedTo C D E p inf outf → p + n = D.length →
      ∃ inf' outf', byteLoop C .succeeding n inf outf = .ok (0, inf', outf') ∧
        CopiedTo C D E D.length inf' outf'
  | 0, p, inf, outf, h, hn => by
    obtain rfl : p = D.length := hn
    exact ⟨inf, outf, rfl, h⟩
  | n + 1, p, inf, outf, h, hn => by
    have hp : p < D.length := by omega
    obtain ⟨inf', outf', hread, hwrite, hcopied⟩ := h.byte hC hp
    obtain ⟨inf'', outf'', hloop, hend⟩ := byteLoop_spec hC n hcopied (by omega)
    refine ⟨inf'', outf'', ?_, hend⟩
    rw [byteLoop, hread, ok_bind]
    simp only [show ¬ (D[p].toNat : ℤ) = -1 by omega, if_false]
    rw [hwrite, ok_bind]
    simp only [show ¬ (D[p].toNat : ℤ) = -1 by omega, if_false]
    exact hloop

/-- The unnecessary seeks end at the last byte. -/
theorem diabolicalSeeks_spec (hlt : D.length < 2 ^ 31) (hpos : 0 < D.length) :
    ∀ (j : ℕ) {p : ℕ} {inf : Io300File Os}, At C inf D p → Sees inf →
      ∃ inf' q, diabolicalSeeks C .succeeding D.length j inf = .ok (0, inf') ∧ At C inf' D q ∧ Sees inf'
  | 0, p, inf, h, hs => ⟨inf, p, rfl, h, hs⟩
  | j + 1, p, inf, h, hs => by
    obtain ⟨f₁, hseek₁, hat₁, hs₁⟩ := h.seek (Nat.zero_le D.length) (by omega)
    obtain ⟨f₂, hseek₂, hat₂, hs₂⟩ := hat₁.seek (q := D.length - 1) (by omega) (by omega)
    obtain ⟨inf', q, hloop, hrest⟩ := diabolicalSeeks_spec hlt hpos j hat₂ (hs₂ (hs₁ hs))
    refine ⟨inf', q, ?_, hrest⟩
    have hlast : (D.length : ℤ) - 1 = ((D.length - 1 : ℕ) : ℤ) := by omega
    rw [diabolicalSeeks, show (0 : ℤ) = ((0 : ℕ) : ℤ) from rfl, hseek₁, ok_bind]
    simp only [show ¬ ((0 : ℕ) : ℤ) = -1 by decide, if_false]
    rw [hlast, hseek₂, ok_bind]
    simp only [show ¬ ((D.length - 1 : ℕ) : ℤ) = -1 by omega, if_false]
    exact hloop

theorem diabolicalLoop_spec (hC : 0 < C) (hlt : D.length < 2 ^ 31) :
    ∀ (n : ℕ) {p : ℕ} {inf outf : Io300File Os}, CopiedTo C D E p inf outf → p + n = D.length →
      ∃ inf' outf', diabolicalLoop C .succeeding D.length (List.range' p n) inf outf =
        .ok (0, inf', outf') ∧ CopiedTo C D E D.length inf' outf'
  | 0, p, inf, outf, h, hn => by
    obtain rfl : p = D.length := hn
    exact ⟨inf, outf, rfl, h⟩
  | n + 1, p, inf, outf, h, hn => by
    have hp : p < D.length := by omega
    obtain ⟨f₁, outf', hread, hwrite, hcopied⟩ := h.byte hC hp
    obtain ⟨f₂, q, hseeks, hat₂, hs₂⟩ := diabolicalSeeks_spec hlt (by omega) 10 hcopied.input hcopied.sees
    obtain ⟨f₃, hseek, hat₃, hs₃⟩ := hat₂.seek (q := p + 1) hp (by omega)
    have hback : CopiedTo C D E (p + 1) f₃ outf' := ⟨hat₃, hs₃ hs₂, hcopied.output, hp⟩
    obtain ⟨inf'', outf'', hloop, hend⟩ := diabolicalLoop_spec hC hlt n hback (by omega)
    refine ⟨inf'', outf'', ?_, hend⟩
    have hnext : (p : ℤ) + 1 = ((p + 1 : ℕ) : ℤ) := by push_cast; rfl
    rw [List.range'_succ, diabolicalLoop, hread, ok_bind]
    simp only [show ¬ (D[p].toNat : ℤ) = -1 by omega, if_false]
    rw [hseeks, ok_bind]
    simp only [show ¬ (0 : ℤ) = 1 by decide, if_false]
    rw [hnext, hseek, ok_bind]
    simp only [show ¬ ((p + 1 : ℕ) : ℤ) = -1 by omega, if_false]
    rw [hwrite, ok_bind]
    simp only [show ¬ (D[p].toNat : ℤ) = -1 by omega, if_false]
    exact hloop

/-! ## The programs -/

/-- What a program that copies leaves: an empty input is reported as an error. -/
def copied (D E : List UInt8) : ℤ × List UInt8 :=
  if D = [] then (1, E) else (0, D ++ E.drop D.length)

section
variable {inCache outCache : List UInt8} (hC : 0 < C) (hin : inCache.length = C)
  (hout : outCache.length = C)
include hC hin hout

omit hC in
theorem catMain_eq {loop : ℕ → Io300File Os → Io300File Os → Except Abort (ℤ × Io300File Os × Io300File Os)}
    (hloop : ∀ inf outf, D ≠ [] → CopiedTo C D E 0 inf outf → ∃ inf' outf',
      loop D.length inf outf = .ok (0, inf', outf') ∧ CopiedTo C D E D.length inf' outf') :
    catMain C .succeeding loop D inCache E outCache = .ok (copied D E) := by
  obtain ⟨inf, inf', outf, hopen, hsize, hopen', -, hstart⟩ := CopiedTo.start (D := D) (E := E) hin hout
  rw [catMain, hopen, ok_bind, hopen', ok_bind, hsize, ok_bind, copied]
  by_cases hD : D = []
  · have hclose := hstart.close 1
    rw [overlay_zero] at hclose
    simp only [hD, List.length_nil, Nat.cast_zero, le_refl, if_true]
    exact hclose
  · have hpos := List.length_pos_of_ne_nil hD
    obtain ⟨inf₂, outf₂, hrun, hend⟩ := hloop inf' outf hD hstart
    have hclose := hend.close 0
    rw [overlay_all] at hclose
    simp only [show ¬ (D.length : ℤ) ≤ 0 by omega, hD, if_false, Int.toNat_natCast]
    rw [hrun, ok_bind]
    exact hclose

/-- **`byte_cat.c` copies its input** over the output, whose rest stays. -/
theorem byteCat_copies : byteCat C .succeeding D inCache E outCache = .ok (copied D E) :=
  catMain_eq hin hout fun _ _ _ h => byteLoop_spec hC D.length h (Nat.zero_add _)

/-- **`diabolical_byte_cat.c` copies its input**, for all its seeks. -/
theorem diabolicalByteCat_copies (hlt : D.length < 2 ^ 31) :
    diabolicalByteCat C .succeeding D inCache E outCache = .ok (copied D E) := by
  refine catMain_eq hin hout fun _ _ _ h => ?_
  rw [List.range_eq_range']
  exact diabolicalLoop_spec hC hlt D.length h (Nat.zero_add _)

/-- **`block_cat.c` copies its input**, also an empty one, unless its buffer is empty. -/
theorem blockCat_copies (b : ℕ) (hfuel : b < fuel ∧ D.length < fuel) :
    blockCat C .succeeding fuel b D inCache E outCache =
      .ok (0, if b = 0 then E else D ++ E.drop D.length) := by
  obtain ⟨inf, inf', outf, hopen, -, hopen', hstart, -⟩ := CopiedTo.start (D := D) (E := E) hin hout
  rw [blockCat, hopen, ok_bind, hopen', ok_bind]
  by_cases hb : b = 0
  · subst hb
    obtain ⟨n, rfl⟩ : ∃ n, fuel = n + 1 := ⟨fuel - 1, by omega⟩
    obtain ⟨inf₂, hrun, hend⟩ := blockLoop_zero hC hstart n 0 hfuel.1
    have hclose := hend.close 0
    rw [overlay_zero] at hclose
    rw [hrun, ok_bind, if_pos rfl]
    exact hclose
  · obtain ⟨inf₂, outf₂, hrun, hend⟩ := blockLoop_spec hC (fun _ => b)
      (fun _ => ⟨Nat.pos_of_ne_zero hb, hfuel.1⟩) fuel 0 hstart (by omega)
    have hclose := hend.close 0
    rw [overlay_all] at hclose
    rw [hrun, ok_bind, if_neg hb]
    exact hclose

/-- **`random_block_cat.c` copies its input**, whatever the sizes of the blocks. -/
theorem randomBlockCat_copies (rand : ℕ → ℕ) (hfuel : MAX_BLOCK_SIZE < fuel ∧ D.length < fuel) :
    randomBlockCat C .succeeding fuel rand D inCache E outCache = .ok (copied D E) := by
  refine catMain_eq hin hout fun _ _ hD h => ?_
  refine blockLoop_spec hC _ (fun k => ⟨Nat.succ_pos _, ?_⟩) fuel 0 h (by omega)
  have := Nat.mod_lt (rand k) (show 0 < MAX_BLOCK_SIZE by decide)
  omega

/-- **All copying programs agree**: byte by byte, with unnecessary seeks, or in blocks of any sizes. -/
theorem cats_copy (b : ℕ) (rand : ℕ → ℕ) (hlt : D.length < 2 ^ 31)
    (hfuel : b < fuel ∧ MAX_BLOCK_SIZE < fuel ∧ D.length < fuel) :
    byteCat C .succeeding D inCache E outCache = .ok (copied D E) ∧
      diabolicalByteCat C .succeeding D inCache E outCache = .ok (copied D E) ∧
      randomBlockCat C .succeeding fuel rand D inCache E outCache = .ok (copied D E) ∧
      blockCat C .succeeding fuel b D inCache E outCache =
        .ok (0, if b = 0 then E else D ++ E.drop D.length) :=
  ⟨byteCat_copies hC hin hout, diabolicalByteCat_copies hC hin hout hlt,
    randomBlockCat_copies hC hin hout rand hfuel.2, blockCat_copies hC hin hout b ⟨hfuel.1, hfuel.2.2⟩⟩

end

/-- Three bytes over five. -/
theorem cats_copy_three :
    byteCat 4 .succeeding [1, 2, 3] (List.replicate 4 0) [9, 8, 7, 6, 5] (List.replicate 4 0) =
        .ok (0, [1, 2, 3, 6, 5]) ∧
      diabolicalByteCat 4 .succeeding [1, 2, 3] (List.replicate 4 0) [9, 8, 7, 6, 5] (List.replicate 4 0) =
        .ok (0, [1, 2, 3, 6, 5]) ∧
      randomBlockCat 4 .succeeding 40 id [1, 2, 3] (List.replicate 4 0) [9, 8, 7, 6, 5]
        (List.replicate 4 0) = .ok (0, [1, 2, 3, 6, 5]) ∧
      blockCat 4 .succeeding 40 2 [1, 2, 3] (List.replicate 4 0) [9, 8, 7, 6, 5] (List.replicate 4 0) =
        .ok (0, [1, 2, 3, 6, 5]) :=
  cats_copy (by decide) rfl rfl 2 id (by decide) (by decide)

end CProj.FileIO.Student
