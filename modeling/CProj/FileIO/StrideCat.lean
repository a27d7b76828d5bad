/-
  `stride_cat.c` on `student.c`: the input is copied by columns.

  The input is seen as rows of `STRIDE` bytes, and a row as columns of `BLOCKSIZE` bytes, of which
  the last may be narrower.  The loop copies column after column (`strided`); what it has still to
  copy (`rest`) is empty exactly when it stops, because by then the output is as long as the input.
-/
import CProj.FileIO.ReverseCat
import CProj.Lib.Lists

namespace CProj.FileIO.Student

open Io300File

variable {C fuel : ℕ} {D : List UInt8} {B S : ℕ}

/-! ## The output -/

section
variable (D : List UInt8) (B S : ℕ)

/-- The number of columns: the offsets `j * B` below `S`. -/
def columns : ℕ := (S + B - 1) / B

/-- The number of rows. -/
def rows : ℕ := D.length / S + 1

/-- The width of a column. -/
def width (j : ℕ) : ℕ := min (j * B + B) S - j * B

/-- The part of the input in the row `k` and the column `j`. -/
def cell (j k : ℕ) : List UInt8 := slice D (k * S + j * B) (width B S j)

/-- The column `j` from the row `k` on. -/
def columnFrom (j k : ℕ) : List UInt8 := (List.range' k (rows D S - k)).flatMap fun k => cell D B S j k

/-- The columns from `j` on. -/
def columnsFrom (j : ℕ) : List UInt8 :=
  (List.range' j (columns B S - j)).flatMap fun j => columnFrom D B S j 0

/-- What is copied: the columns one after the other, each from the first row to the last. -/
def strided : List UInt8 :=
  (List.range (columns B S)).flatMap fun j => (List.range (rows D S)).flatMap fun k => cell D B S j k

/-- What has still to be copied at the row `k` of the column `j`. -/
def rest (j k : ℕ) : List UInt8 := columnFrom D B S j k ++ columnsFrom D B S (j + 1)

end

theorem strided_eq : strided D B S = columnsFrom D B S 0 := by
  simp only [strided, columnsFrom, columnFrom, Nat.sub_zero, List.range_eq_range']

theorem lt_columns (hB : 0 < B) {j : ℕ} : j < columns B S ↔ j * B < S := by
  rw [columns, ← Nat.succ_le_iff, Nat.le_div_iff_mul_le hB, Nat.succ_mul]
  omega

theorem columnsFrom_succ {j : ℕ} (h : j < columns B S) :
    columnsFrom D B S j = rest D B S j 0 := by
  rw [columnsFrom, show columns B S - j = columns B S - (j + 1) + 1 by omega, List.range'_succ,
    List.flatMap_cons]
  rfl

theorem columnsFrom_end {j : ℕ} (h : columns B S ≤ j) : columnsFrom D B S j = [] := by
  rw [columnsFrom, Nat.sub_eq_zero_of_le h]
  rfl

/-- Cells outside the input are empty. -/
theorem cell_outside {j k : ℕ} (h : D.length ≤ k * S + j * B) : cell D B S j k = [] :=
  slice_of_length_le _ h

theorem columnFrom_outside {j k : ℕ} (h : D.length ≤ k * S + j * B) :
    columnFrom D B S j k = [] := by
  rw [columnFrom, List.flatMap_eq_nil_iff]
  intro i hi
  have hle := Nat.mul_le_mul_right S (List.mem_range'_1.1 hi).1
  exact cell_outside (by omega)

theorem columnsFrom_outside {j : ℕ} (h : D.length ≤ j * B) : columnsFrom D B S j = [] := by
  rw [columnsFrom, List.flatMap_eq_nil_iff]
  intro i hi
  have hle := Nat.mul_le_mul_right B (List.mem_range'_1.1 hi).1
  exact columnFrom_outside (by omega)

/-- The next cell, which is not empty. -/
theorem rest_cell (hB : 0 < B) {j k : ℕ} (hj : j < columns B S) (hk : k * S + j * B < D.length) :
    rest D B S j k = cell D B S j k ++ rest D B S j (k + 1) ∧ cell D B S j k ≠ [] := by
  have hjS := (lt_columns hB).1 hj
  have hrows : k < rows D S := by
    rw [rows, Nat.lt_succ_iff, Nat.le_div_iff_mul_le (by omega)]
    omega
  constructor
  · rw [rest, rest, columnFrom, show rows D S - k = rows D S - (k + 1) + 1 by omega,
      List.range'_succ, List.flatMap_cons, List.append_assoc]
    rfl
  · refine List.ne_nil_of_length_pos ?_
    rw [cell, length_slice, width]
    omega

/-- **Every byte is copied once.** -/
theorem strided_perm (hB : 0 < B) (hS : 0 < S) : (strided D B S).Perm D := by
  refine (flatMap_swap_perm _ _ _).trans (List.Perm.of_eq ?_)
  -- the cells of a row are the row
  have hrow : ∀ k, ((List.range (columns B S)).flatMap fun j => cell D B S j k) =
      slice D (k * S) S := by
    intro k
    have hcut := flatMap_slice D (k * S) (p := fun j => min (j * B) S) (by simp)
      (fun i j hij => min_le_min_right S (Nat.mul_le_mul_right B hij)) (columns B S)
    have hlast : min (columns B S * B) S = S := by
      have := mt (lt_columns (B := B) (S := S) hB).2 (lt_irrefl _)
      omega
    rw [hlast] at hcut
    rw [← hcut]
    refine List.flatMap_congr fun j hj => ?_
    have hj' := (lt_columns hB).1 (List.mem_range.1 hj)
    rw [cell, width, Nat.succ_mul, min_eq_left (a := j * B) hj'.le]
  have hcut := flatMap_slice D 0 (p := fun k => k * S) (Nat.zero_mul S)
    (fun i j hij => Nat.mul_le_mul_right S hij) (rows D S)
  have hall : D.length ≤ rows D S * S := by
    have := Nat.div_add_mod' D.length S
    have := Nat.mod_lt D.length hS
    rw [rows, Nat.succ_mul]
    omega
  calc ((List.range (rows D S)).flatMap fun k => (List.range (columns B S)).flatMap fun j => cell D B S j k)
      _ = (List.range (rows D S)).flatMap fun k => slice D (0 + k * S) ((k + 1) * S - k * S) := by
        refine List.flatMap_congr fun k _ => ?_
        rw [hrow, Nat.zero_add, Nat.succ_mul, Nat.add_sub_cancel_left]
      _ = slice D 0 (rows D S * S) := hcut
      _ = D := by rw [slice, List.drop_zero, List.take_of_length_le hall]

/-! ## The loop -/

/-- The positions to which the loop moves: those of the cells, and the ends of the columns. -/
def Position (D : List UInt8) (B S p : ℕ) : Prop :=
  ∃ j k, j * B < S ∧ k * S + j * B < D.length ∧ (p = k * S + j * B ∨ p = min (j * B + B) S)

/-- The next row. -/
theorem nextStride_row {j k : ℕ} (hS : S < 2 ^ 63) (hlt : k * S + j * B < 2 ^ 31)
    (h : (k + 1) * S + j * B < D.length) :
    nextStride S D.length (k * S + j * B) (width B S j) = ((k + 1) * S + j * B, width B S j) := by
  have hadd : (k * S + j * B + S) % 2 ^ 64 = (k + 1) * S + j * B := by
    rw [Nat.succ_mul]
    omega
  simp only [nextStride, hadd]
  rw [if_neg (by omega)]

/-- The next column. -/
theorem nextStride_column {j k : ℕ} (hB : 0 < B) (hS : S < 2 ^ 63) (hlt : k * S + j * B < 2 ^ 31)
    (hj : j < columns B S) (h : D.length ≤ (k + 1) * S + j * B) :
    (nextStride S D.length (k * S + j * B) (width B S j)).1 = min (j * B + B) S ∧
      (j + 1 < columns B S →
        nextStride S D.length (k * S + j * B) (width B S j) =
          ((j + 1) * B, width B S (j + 1))) := by
  have hjS := (lt_columns hB).1 hj
  have hadd : (k * S + j * B + S) % 2 ^ 64 = (k + 1) * S + j * B := by
    rw [Nat.succ_mul]
    omega
  have hmod : ((k + 1) * S + j * B) % S = j * B := by
    rw [Nat.mul_comm, Nat.mul_add_mod, Nat.mod_eq_of_lt hjS]
  have hpos : (j * B + width B S j) % 2 ^ 64 = min (j * B + B) S := by
    rw [width]
    omega
  simp only [nextStride, hadd]
  rw [if_pos h]
  simp only [hmod, hpos]
  constructor
  · split_ifs <;> rfl
  · intro hj'
    have hjS' := (lt_columns hB).1 hj'
    have hsucc : (j + 1) * B = j * B + B := Nat.succ_mul j B
    have hmin : min (j * B + B) S = (j + 1) * B := by omega
    have hwidth : width B S j = B := by
      rw [width]
      omega
    rw [hmin, hwidth]
    by_cases hlast : ((j + 1) * B + B) % 2 ^ 64 > S
    · rw [if_pos hlast, width]
      congr 1
      omega
    · rw [if_neg hlast, width]
      congr 1
      omega

/-- The loop is about to copy the cell in the row `k` and the column `j`. -/
structure Copying (C : ℕ) (D : List UInt8) (B S j k : ℕ) (s : Stride) : Prop where
  column : j < columns B S
  inside : k * S + j * B < D.length
  inf : At C s.inf D (k * S + j * B)
  sees : Sees s.inf
  pos : s.pos = k * S + j * B
  blockSize : s.blockSize = width B S j
  out : ∃ done, AtEnd C s.outf done ∧ done ++ rest D B S j k = strided D B S ∧ s.written = done.length
  reads : ∀ n ∈ s.reads, n ≤ B

/-- The loop has copied everything. -/
structure Copied (C : ℕ) (D : List UInt8) (B S : ℕ) (s : Stride) : Prop where
  inf : Ok C s.inf
  out : AtEnd C s.outf (strided D B S)
  reads : ∀ n ∈ s.reads, n ≤ B

/-- The end of an iteration, after the next position has been computed. -/
def moveOn (C fuel S : ℕ) (D : List UInt8) (n : ℕ) (s : Stride) : Except Abort (ℤ × Stride) := do
  let (r, inf) ← io300Seek C .succeeding s.inf s.pos
  if r = -1 then return (1, { s with inf := inf })
  strideLoop C .succeeding fuel S D.length n { s with inf := inf }

theorem width_le (j : ℕ) : width B S j ≤ B := by
  rw [width]
  omega

/-- Copying a cell. -/
theorem Copying.step {j k : ℕ} {s : Stride} (h : Copying C D B S j k s) (hC : 0 < C) (hB : 0 < B)
    (hS : 0 < S) (hfuel : B < fuel) (n : ℕ) :
    ∃ t done, strideLoop C .succeeding fuel S D.length (n + 1) s =
        moveOn C fuel S D n t ∧
      (∃ p, At C t.inf D p) ∧ Sees t.inf ∧
      (t.pos, t.blockSize) = nextStride S D.length (k * S + j * B) (width B S j) ∧
      AtEnd C t.outf done ∧ done ++ rest D B S j (k + 1) = strided D B S ∧ t.written = done.length ∧
      ∀ n ∈ t.reads, n ≤ B := by
  obtain ⟨done, hout, hsplit, hwritten⟩ := h.out
  obtain ⟨hrest, hne⟩ := rest_cell hB h.column h.inside
  have hpos := List.length_pos_of_ne_nil hne
  have hw : width B S j < fuel := (width_le j).trans_lt hfuel
  obtain ⟨inf₁, hread, hat₁, hs₁⟩ := h.inf.read hC h.sees h.inside.le hw
  change io300Read C .succeeding fuel s.inf (width B S j) =
    .ok ((((cell D B S j k).length : ℤ), cell D B S j k), inf₁) at hread
  have hlen : (cell D B S j k).length < fuel := by
    rw [cell, length_slice]
    omega
  obtain ⟨outf₁, hwrite, hout₁⟩ := hout.write hC hlen
  have hlt : s.written < D.length := by
    have hperm := (strided_perm (D := D) hB hS).length_eq
    rw [← hsplit, hrest, List.length_append, List.length_append] at hperm
    omega
  refine ⟨⟨inf₁, outf₁, (nextStride S D.length (k * S + j * B) (width B S j)).1,
    s.written + (cell D B S j k).length, (nextStride S D.length (k * S + j * B) (width B S j)).2,
    s.reads ++ [width B S j]⟩, done ++ cell D B S j k, ?_, ⟨_, hat₁⟩, hs₁, rfl, hout₁, ?_, ?_, ?_⟩
  · rw [strideLoop, if_pos hlt, h.blockSize, hread, ok_bind]
    simp only [if_neg (show ¬ ((cell D B S j k).length : ℤ) ≤ 0 by omega)]
    rw [hwrite, ok_bind, h.pos]
    rfl
  · rw [List.append_assoc, ← hrest, hsplit]
  · rw [List.length_append, hwritten]
  · intro m hm
    rcases List.mem_append.1 hm with hm | hm
    · exact h.reads m hm
    · rw [List.mem_singleton.1 hm]
      exact width_le j

/-- Moving to a cell. -/
theorem moveOn_inside (fuel S n : ℕ) {p : ℕ} {t : Stride} (hat : At C t.inf D p) (hs : Sees t.inf)
    (hle : t.pos ≤ D.length) (hlt : t.pos < 2 ^ 31) : ∃ inf, moveOn C fuel S D n t =
        strideLoop C .succeeding fuel S D.length n { t with inf := inf } ∧
      At C inf D t.pos ∧ Sees inf := by
  obtain ⟨inf, hseek, hat', hs'⟩ := hat.seek hle hlt
  refine ⟨inf, ?_, hat', hs' hs⟩
  rw [moveOn, hseek, ok_bind]
  exact if_neg (show ¬ (t.pos : ℤ) = -1 by omega)

/-- Moving anywhere, after the last cell. -/
theorem moveOn_end (fuel S n : ℕ) {p : ℕ} {t : Stride} (hat : At C t.inf D p) (hlt : t.pos < 2 ^ 31)
    (hend : D.length ≤ t.written) (hn : 0 < n) :
    ∃ inf, moveOn C fuel S D n t = .ok (0, { t with inf := inf }) ∧ Ok C inf := by
  obtain ⟨inf, hseek, hok, -⟩ := io300Seek_spec hat.ok.toWin hat.ok.head_le_end
    (Int.natCast_nonneg t.pos)
  rw [(toInt_eq_iff (Int.natCast_nonneg _)).2 (by omega)] at hseek
  obtain ⟨n, rfl⟩ : ∃ m, n = m + 1 := ⟨n - 1, by omega⟩
  refine ⟨inf, ?_, hok⟩
  rw [moveOn, hseek, ok_bind]
  simp only [if_neg (show ¬ (t.pos : ℤ) = -1 by omega)]
  rw [strideLoop, if_neg (Nat.not_lt.2 hend)]

/-- **The loop** copies the rest, and ends. -/
theorem strideLoop_spec (hC : 0 < C) (hB : 0 < B) (hS : 0 < S) (hS' : S < 2 ^ 63) (hfuel : B < fuel)
    (hpos : ∀ p, Position D B S p → p < 2 ^ 31) : ∀ (n : ℕ) {j k : ℕ} {s : Stride},
    Copying C D B S j k s → (rest D B S j k).length < n →
    ∃ s', strideLoop C .succeeding fuel S D.length n s = .ok (0, s') ∧ Copied C D B S s'
  | 0, j, k, s, _, hn => absurd hn (Nat.not_lt_zero _)
  | n + 1, j, k, s, h, hn => by
    obtain ⟨t, done, hloop, ⟨p, hat⟩, hs, hnext, hout, hsplit, hwritten, hreads⟩ :=
      h.step hC hB hS hfuel n
    obtain ⟨hrest, hne⟩ := rest_cell hB h.column h.inside
    have hcell := List.length_pos_of_ne_nil hne
    rw [hrest, List.length_append] at hn
    have hjS := (lt_columns hB).1 h.column
    have hhere := hpos _ ⟨j, k, hjS, h.inside, Or.inl rfl⟩
    rw [hloop]
    by_cases hrow : (k + 1) * S + j * B < D.length
    · -- to the next row
      rw [nextStride_row hS' hhere hrow] at hnext
      obtain ⟨hp, hb⟩ := Prod.mk.inj hnext
      have hlt := hpos _ ⟨j, k + 1, hjS, hrow, Or.inl rfl⟩
      obtain ⟨inf, hmove, hat', hs'⟩ := moveOn_inside fuel S n hat hs
        (by rw [hp]; exact hrow.le) (by rw [hp]; exact hlt)
      rw [hp] at hat'
      rw [hmove]
      exact strideLoop_spec hC hB hS hS' hfuel hpos n (j := j) (k := k + 1)
        ⟨h.column, hrow, hat', hs', hp, hb, ⟨done, hout, hsplit, hwritten⟩, hreads⟩ (by omega)
    have hdone : columnFrom D B S j (k + 1) = [] := columnFrom_outside (Nat.le_of_not_lt hrow)
    obtain ⟨hp, hb⟩ := nextStride_column hB hS' hhere h.column (Nat.le_of_not_lt hrow)
    have hp' : t.pos = min (j * B + B) S := (congrArg Prod.fst hnext).trans hp
    have hlt : t.pos < 2 ^ 31 := by
      rw [hp']
      exact hpos _ ⟨j, k, hjS, h.inside, Or.inr rfl⟩
    rw [rest, hdone, List.nil_append] at hsplit hn
    by_cases hcolumn : j + 1 < columns B S ∧ (j + 1) * B < D.length
    · -- to the next column
      obtain ⟨hj', hin⟩ := hcolumn
      have hnext' := hnext.trans (hb hj')
      obtain ⟨hq, hw⟩ := Prod.mk.inj hnext'
      obtain ⟨inf, hmove, hat', hs'⟩ := moveOn_inside fuel S n hat hs
        (by rw [hq]; exact hin.le) hlt
      rw [hq] at hat'
      rw [columnsFrom_succ hj'] at hsplit hn
      have hzero : 0 * S + (j + 1) * B = (j + 1) * B := by rw [Nat.zero_mul, Nat.zero_add]
      rw [hmove]
      exact strideLoop_spec hC hB hS hS' hfuel hpos n (j := j + 1) (k := 0)
        ⟨hj', by rwa [hzero], by rwa [hzero], hs', by rwa [hzero], hw,
          ⟨done, hout, hsplit, hwritten⟩, hreads⟩ (by omega)
    · -- everything has been copied
      have hnone : columnsFrom D B S (j + 1) = [] := by
        by_cases hj' : j + 1 < columns B S
        · exact columnsFrom_outside (Nat.le_of_not_lt fun hin => hcolumn ⟨hj', hin⟩)
        · exact columnsFrom_end (Nat.le_of_not_lt hj')
      rw [hnone, List.append_nil] at hsplit
      have hend : D.length ≤ t.written := by
        rw [hwritten, hsplit, (strided_perm hB hS).length_eq]
      obtain ⟨inf, hmove, hok⟩ := moveOn_end fuel S n hat hlt hend (by omega)
      exact ⟨_, hmove, hok, hsplit ▸ hout, hreads⟩

/-- **Every byte is copied exactly once.** `stride_cat` ends, writes the columns of the input one
    after the other, which is a permutation of it, and reads blocks that fit its buffer. -/
theorem strideCat_spec (C : ℕ) (hC : 4 ≤ C) (B S : ℕ) (hB : 1 ≤ B) (hBS : B ≤ S) (hS : S < 2 ^ 63)
    (disk inCache outCache : List UInt8) (hin : inCache.length = C) (hout : outCache.length = C)
    (hpos : ∀ p, Position disk B S p → p < 2 ^ 31) : ∃ N, ∀ fuel ≥ N, ∃ reads,
      strideCat C .succeeding fuel B S disk inCache [] outCache = .ok (0, strided disk B S, reads) ∧
      (strided disk B S).Perm disk ∧ ∀ n ∈ reads, n ≤ B := by
  have hperm : (strided disk B S).Perm disk := strided_perm (by omega) (by omega)
  refine ⟨disk.length + B + 1, fun fuel hfuel => ?_⟩
  obtain ⟨inf, hopen, -, -, inf₁, hsize, hat, hs⟩ := open_at disk hin
  obtain ⟨inf₂, hseek, hat₂, hs₂⟩ := hat.seek (q := 0) (Nat.zero_le _) (by decide)
  obtain ⟨outf, hopen', hat', -⟩ := open_at [] hout
  have hloop : ∃ s', strideLoop C .succeeding fuel S disk.length fuel ⟨inf₂, outf, 0, 0, B, []⟩ =
      .ok (0, s') ∧ Copied C disk B S s' := by
    by_cases h0 : disk.length = 0
    · obtain ⟨n, rfl⟩ : ∃ n, fuel = n + 1 := ⟨fuel - 1, by omega⟩
      have hnil : strided disk B S = [] := List.eq_nil_of_length_eq_zero (hperm.length_eq.trans h0)
      refine ⟨_, by rw [strideLoop, if_neg (by omega)], hat₂.ok, ?_,
        fun n hn => absurd hn List.not_mem_nil⟩
      rw [hnil]
      exact hat'
    · have hcol : 0 < columns B S := (lt_columns (by omega)).2 (by omega)
      have hzero : 0 * S + 0 * B = 0 := by omega
      have hrest : rest disk B S 0 0 = strided disk B S := by rw [strided_eq, columnsFrom_succ hcol]
      refine strideLoop_spec (by omega) (by omega) (by omega) hS (by omega) hpos fuel (j := 0)
        (k := 0)
        ⟨hcol, by rw [hzero]; omega, by rw [hzero]; exact hat₂, hs₂ hs, hzero.symm, ?_,
          ⟨[], hat', hrest, rfl⟩, fun n hn => absurd hn List.not_mem_nil⟩ ?_
      · simp only [width]
        omega
      · rw [hrest, hperm.length_eq]
        omega
  obtain ⟨s', hrun, hcopied⟩ := hloop
  obtain ⟨inf₃, hclose, -⟩ := io300Close_spec hcopied.inf.toWin hcopied.inf.head_le_end
  obtain ⟨outf₃, hclose', hdata⟩ := hcopied.out.close
  refine ⟨s'.reads, ?_, hperm, hcopied.reads⟩
  have hseek' : io300Seek C .succeeding inf₁ 0 = .ok (0, inf₂) := hseek
  rw [strideCat, hopen, ok_bind, hsize, ok_bind]
  simp only [if_neg (show ¬ (disk.length : ℤ) < 0 by omega), Int.toNat_natCast]
  rw [hseek', ok_bind]
  simp only [if_neg (lt_irrefl (0 : ℤ))]
  rw [hopen', ok_bind, hrun, ok_bind]
  simp only
  rw [hclose, ok_bind, hclose', ok_bind, hdata]
  rfl

/-- Five bytes in rows of three, with columns of two bytes and of one. -/
theorem strideCat_spec_five : ∃ N, ∀ fuel ≥ N, ∃ reads,
    strideCat 4 .succeeding fuel 2 3 [1, 2, 3, 4, 5] [0, 0, 0, 0] [] [0, 0, 0, 0] =
      .ok (0, strided [1, 2, 3, 4, 5] 2 3, reads) ∧
    (strided [1, 2, 3, 4, 5] 2 3).Perm [1, 2, 3, 4, 5] ∧ ∀ n ∈ reads, n ≤ 2 :=
  strideCat_spec 4 (by decide) 2 3 (by decide) (by decide) (by decide) [1, 2, 3, 4, 5] [0, 0, 0, 0]
    [0, 0, 0, 0] rfl rfl fun p hp => by
      obtain ⟨j, k, hj, hk, rfl | rfl⟩ := hp
      · exact hk.trans (by decide)
      · omega

example : strided [1, 2, 3, 4, 5] 2 3 = [1, 2, 4, 5, 3] := by decide

end CProj.FileIO.Student
