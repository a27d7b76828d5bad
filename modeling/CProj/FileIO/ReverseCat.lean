/-
  `reverse_block_cat.c` and `reverse_byte_cat.c` on `student.c`: both write the input backwards.

  The block program starts at the last multiple of the block size, where it reads a partial block,
  or nothing; when it has come to a position, the bytes from there on are in the output.
-/
import CProj.FileIO.Handles
import CProj.FileIO.Programs

namespace CProj.FileIO.Student

variable {C fuel : ℕ} {inf outf : Io300File Os} {disk : List UInt8}

/-- The output when the input has been read from the position `i` on. -/
def reversedFrom (disk : List UInt8) (i : ℕ) : List UInt8 := (disk.drop i).reverse

theorem reversedFrom_slice (i n : ℕ) :
    reversedFrom disk (i + n) ++ (slice disk i n).reverse = reversedFrom disk i := by
  rw [reversedFrom, reversedFrom, slice, ← List.reverse_append, ← List.drop_drop,
    List.take_append_drop]

theorem reversedFrom_end {i : ℕ} (h : disk.length ≤ i) : reversedFrom disk i = [] := by
  rw [reversedFrom, List.drop_eq_nil_of_le h, List.reverse_nil]

/-- The handle of the output, at its end. -/
def AtEnd (C : ℕ) (f : Io300File Os) (D : List UInt8) : Prop := At C f D D.length

theorem AtEnd.write {D bs : List UInt8} (hC : 0 < C) (h : AtEnd C outf D)
    (hfuel : bs.length < fuel) :
    ∃ g, io300Write C .succeeding fuel outf bs = .ok ((bs.length : ℤ), g) ∧
      AtEnd C g (D ++ bs) := by
  obtain ⟨g, hg, hat, -⟩ := At.write hC h hfuel
  rw [store_at_end] at hat
  exact ⟨g, hg, by rw [AtEnd, List.length_append]; exact hat⟩

theorem AtEnd.writec {D : List UInt8} (hC : 0 < C) (h : AtEnd C outf D) (ch : ℤ) :
    ∃ g, io300Writec C .succeeding outf ch = .ok (ch, g) ∧ AtEnd C g (D ++ [toChar ch]) := by
  obtain ⟨g, hg, hat, -⟩ := At.writec hC h ch
  rw [store_at_end] at hat
  exact ⟨g, hg, by rw [AtEnd, List.length_append]; exact hat⟩

/-! ## Blocks -/

/-- One round, at the position `i`. -/
theorem reverseBlockLoop_step (hC : 0 < C) {b i : ℕ} (hb : b < fuel) (hi : i ≤ disk.length)
    (hlt : disk.length < 2 ^ 31) {p : ℕ} (hin : At C inf disk p) (hs : Sees inf)
    (hout : AtEnd C outf (reversedFrom disk (i + b))) (n : ℕ) :
    ∃ inf' outf' q, At C inf' disk q ∧ Sees inf' ∧ AtEnd C outf' (reversedFrom disk i) ∧
      reverseBlockLoop C .succeeding fuel b (n + 1) i inf outf =
        reverseBlockLoop C .succeeding fuel b n (i - b) inf' outf' := by
  obtain ⟨f₁, hseek, hat₁, hs₁⟩ := hin.seek hi (by omega)
  obtain ⟨f₂, hread, hat₂, hs₂⟩ := hat₁.read hC (hs₁ hs) hi hb
  have hlen : (slice disk i b).reverse.length < fuel := by
    rw [List.length_reverse, length_slice]
    omega
  obtain ⟨g, hwrite, hout'⟩ := hout.write hC hlen
  rw [reversedFrom_slice] at hout'
  have hne : ∀ k : ℕ, ¬ (k : ℤ) = -1 := fun k => by omega
  refine ⟨f₂, g, _, hat₂, hs₂, hout', ?_⟩
  rw [reverseBlockLoop, if_pos (Int.natCast_nonneg i), hseek, ok_bind]
  simp only [if_neg (hne i)]
  rw [hread, ok_bind]
  simp only [if_neg (hne _)]
  rw [hwrite, ok_bind]
  simp only [if_neg (hne _)]

/-- **The loop** from the `k`-th block down. -/
theorem reverseBlockLoop_spec (hC : 0 < C) {b : ℕ} (hb : b < fuel) (hpos : 0 < b)
    (hlt : disk.length < 2 ^ 31) : ∀ (k n : ℕ) {inf outf : Io300File Os} {p : ℕ}, k * b ≤ disk.length →
    At C inf disk p → Sees inf → AtEnd C outf (reversedFrom disk (k * b + b)) → k + 2 ≤ n →
    ∃ inf' outf' q, reverseBlockLoop C .succeeding fuel b n (k * b : ℕ) inf outf =
      .ok (0, inf', outf') ∧
      At C inf' disk q ∧ AtEnd C outf' disk.reverse
  | k, 0, _, _, _, _, _, _, _, hn => absurd hn (by omega)
  | 0, n + 1, inf, outf, p, hk, hin, hs, hout, hn => by
    obtain ⟨inf', outf', q, hat, -, hout', hround⟩ :=
      reverseBlockLoop_step hC hb hk hlt hin hs hout n
    obtain ⟨n, rfl⟩ : ∃ j, n = j + 1 := ⟨n - 1, by omega⟩
    refine ⟨inf', outf', q, ?_, hat, ?_⟩
    · rw [hround, reverseBlockLoop, if_neg (by omega)]
    · rw [Nat.zero_mul] at hout'
      exact hout'
  | k + 1, n + 1, inf, outf, p, hk, hin, hs, hout, hn => by
    obtain ⟨inf', outf', q, hat, hs', hout', hround⟩ :=
      reverseBlockLoop_step hC hb hk hlt hin hs hout n
    have hsucc : (k + 1) * b = k * b + b := Nat.succ_mul k b
    rw [hsucc] at hout' hk
    obtain ⟨inf'', outf'', q', hloop, hrest⟩ :=
      reverseBlockLoop_spec hC hb hpos hlt k n (by omega) hat hs' hout' (by omega)
    refine ⟨inf'', outf'', q', ?_, hrest⟩
    have hback : ((((k + 1) * b : ℕ) : ℤ) - (b : ℤ)) = ((k * b : ℕ) : ℤ) := by
      rw [hsucc]
      push_cast
      ring
    rw [hround, hback, hloop]

/-- **`reverse_block_cat.c`** writes the input backwards, whatever the block size. -/
theorem reverseBlockCat_eq (hC : 0 < C) {b : ℕ} (hpos : 0 < b) {inCache outCache : List UInt8}
    (hin : inCache.length = C) (hout : outCache.length = C) (hne : disk ≠ [])
    (hlt : disk.length < 2 ^ 31) (hb : b < fuel) (hfuel : disk.length + 2 ≤ fuel) :
    reverseBlockCat C .succeeding fuel b disk inCache [] outCache = .ok (0, disk.reverse) := by
  obtain ⟨inf, hopen, -, -, inf₁, hsize, hat, hs⟩ := open_at disk hin
  obtain ⟨outf, hopen', hat', -⟩ := open_at [] hout
  have hlen := List.length_pos_of_ne_nil hne
  have hk : disk.length / b * b ≤ disk.length := Nat.div_mul_le_self _ _
  have hend : disk.length ≤ disk.length / b * b + b := by
    have := Nat.div_add_mod' disk.length b
    have := Nat.mod_lt disk.length hpos
    omega
  have hdiv : disk.length / b ≤ disk.length := Nat.div_le_self _ _
  have hstart : AtEnd C outf (reversedFrom disk (disk.length / b * b + b)) := by
    rw [reversedFrom_end hend]
    exact hat'
  obtain ⟨inf₂, outf₂, q, hloop, hat₂, hout₂⟩ := reverseBlockLoop_spec hC hb hpos hlt
    (disk.length / b) fuel hk hat hs hstart (by omega)
  obtain ⟨inf₃, hclose, -⟩ := hat₂.close
  obtain ⟨outf₃, hclose', hdata⟩ := hout₂.close
  have hi : (disk.length : ℤ) - (disk.length : ℤ) % (b : ℤ) = ((disk.length / b * b : ℕ) : ℤ) := by
    have := Nat.div_add_mod' disk.length b
    omega
  rw [reverseBlockCat, if_neg (by omega), hopen, ok_bind, hopen', ok_bind, hsize, ok_bind]
  simp only [if_neg (show ¬ (disk.length : ℤ) ≤ 0 by omega)]
  rw [hi, hloop, ok_bind]
  simp only
  rw [hclose, ok_bind, hclose', ok_bind, hdata]
  rfl

/-! ## Bytes -/

/-- **The loop** of the byte program over the first `n` positions. -/
theorem reverseByteLoop_spec (hC : 0 < C) (hlt : disk.length < 2 ^ 31) : ∀ (n : ℕ)
    {inf outf : Io300File Os} {p : ℕ}, n ≤ disk.length → At C inf disk p → Sees inf →
    AtEnd C outf (reversedFrom disk n) →
    ∃ inf' outf' q, reverseByteLoop C .succeeding (List.range n).reverse inf outf =
      .ok (0, inf', outf') ∧
      At C inf' disk q ∧ AtEnd C outf' disk.reverse
  | 0, inf, outf, p, _, hin, _, hout => ⟨inf, outf, p, rfl, hin, hout⟩
  | n + 1, inf, outf, p, hn, hin, hs, hout => by
    obtain ⟨f₁, hseek, hat₁, hs₁⟩ := hin.seek (q := n) (by omega) (by omega)
    obtain ⟨f₂, hread, hat₂, hs₂⟩ := hat₁.readc hC (hs₁ hs) (by omega)
    obtain ⟨g, hwrite, hout'⟩ := hout.writec hC (disk[n].toNat : ℤ)
    have hbyte : reversedFrom disk (n + 1) ++ [toChar (disk[n].toNat : ℤ)] =
        reversedFrom disk n := by
      have hslice : (slice disk n 1).reverse = [toChar (disk[n].toNat : ℤ)] := by
        rw [slice, List.drop_eq_getElem_cons (by omega), toChar_toNat]
        rfl
      rw [← hslice, reversedFrom_slice]
    rw [hbyte] at hout'
    obtain ⟨inf', outf', q, hloop, hrest⟩ := reverseByteLoop_spec hC hlt n (by omega) hat₂ hs₂ hout'
    have hne : ∀ k : ℕ, ¬ (k : ℤ) = -1 := fun k => by omega
    refine ⟨inf', outf', q, ?_, hrest⟩
    rw [List.range_succ, List.reverse_append, List.reverse_singleton, List.singleton_append,
      reverseByteLoop, hseek, ok_bind]
    simp only [if_neg (hne n)]
    rw [hread, ok_bind]
    simp only [if_neg (hne _)]
    rw [hwrite, ok_bind]
    simp only [if_neg (hne _)]
    exact hloop

/-- **`reverse_byte_cat.c`** writes the input backwards. -/
theorem reverseByteCat_eq (hC : 0 < C) {inCache outCache : List UInt8}
    (hin : inCache.length = C) (hout : outCache.length = C) (hne : disk ≠ [])
    (hlt : disk.length < 2 ^ 31) :
    reverseByteCat C .succeeding disk inCache [] outCache = .ok (0, disk.reverse) := by
  obtain ⟨inf, hopen, -, -, inf₁, hsize, hat, hs⟩ := open_at disk hin
  obtain ⟨outf, hopen', hat', -⟩ := open_at [] hout
  have hlen := List.length_pos_of_ne_nil hne
  have hstart : AtEnd C outf (reversedFrom disk disk.length) := by
    rw [reversedFrom_end le_rfl]
    exact hat'
  obtain ⟨inf₂, outf₂, q, hloop, hat₂, hout₂⟩ :=
    reverseByteLoop_spec hC hlt disk.length le_rfl hat hs hstart
  obtain ⟨inf₃, hclose, -⟩ := hat₂.close
  obtain ⟨outf₃, hclose', hdata⟩ := hout₂.close
  rw [reverseByteCat, hopen, ok_bind, hopen', ok_bind, hsize, ok_bind]
  simp only [if_neg (show ¬ (disk.length : ℤ) ≤ 0 by omega), Int.toNat_natCast]
  rw [hloop, ok_bind]
  simp only
  rw [hclose, ok_bind, hclose', ok_bind, hdata]
  rfl

/-- **Reversal does not depend on the block size.** The block program writes the input backwards,
    as the byte program does; from its output, with any block size, it gives back the input. -/
theorem reverseBlockCat_spec (C : ℕ) (hC : 4 ≤ C) (b b' : ℕ) (hb : 1 ≤ b ∧ b < 2 ^ 31)
    (hb' : 1 ≤ b' ∧ b' < 2 ^ 31) (disk : List UInt8) (hne : disk ≠ []) (hlt : disk.length < 2 ^ 31)
    (caches : ℕ → List UInt8) (hcaches : ∀ i, (caches i).length = C) :
    ∃ N, ∀ fuel ≥ N,
      reverseBlockCat C .succeeding fuel b disk (caches 0) [] (caches 1) = .ok (0, disk.reverse) ∧
      reverseByteCat C .succeeding disk (caches 2) [] (caches 3) = .ok (0, disk.reverse) ∧
      reverseBlockCat C .succeeding fuel b' disk.reverse (caches 4) [] (caches 5) =
        .ok (0, disk) := by
  refine ⟨disk.length + b + b' + 2, fun fuel hfuel => ⟨?_, ?_, ?_⟩⟩
  · exact reverseBlockCat_eq (by omega) hb.1 (hcaches 0) (hcaches 1) hne hlt (by omega) (by omega)
  · exact reverseByteCat_eq (by omega) (hcaches 2) (hcaches 3) hne hlt
  · rw [reverseBlockCat_eq (by omega) hb'.1 (hcaches 4) (hcaches 5) (by simpa using hne)
      (by rwa [List.length_reverse]) (by omega) (by rw [List.length_reverse]; omega),
      List.reverse_reverse]

theorem reverseBlockCat_spec_seven : ∃ N, ∀ fuel ≥ N,
    reverseBlockCat 4 .succeeding fuel 3 [1, 2, 3, 4, 5, 6, 7] [0, 0, 0, 0] [] [0, 0, 0, 0] =
      .ok (0, [7, 6, 5, 4, 3, 2, 1]) ∧
    reverseByteCat 4 .succeeding [1, 2, 3, 4, 5, 6, 7] [0, 0, 0, 0] [] [0, 0, 0, 0] =
      .ok (0, [7, 6, 5, 4, 3, 2, 1]) ∧
    reverseBlockCat 4 .succeeding fuel 7 [7, 6, 5, 4, 3, 2, 1] [0, 0, 0, 0] [] [0, 0, 0, 0] =
      .ok (0, [1, 2, 3, 4, 5, 6, 7]) :=
  reverseBlockCat_spec 4 (by decide) 3 7 (by decide) (by decide) [1, 2, 3, 4, 5, 6, 7] (by decide)
    (by decide) (fun _ => [0, 0, 0, 0]) fun _ => rfl

end CProj.FileIO.Student
