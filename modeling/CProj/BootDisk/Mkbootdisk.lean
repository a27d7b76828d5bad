/-
  The writer of boot images (`build/mkbootdisk.cc`), run as `mkbootdisk BOOTSECTOR [FILE | @N]...`.

  * A file is its contents; without the option `-p` there is no limit on the output (`maxoff` is 0),
    and the option `-m`, which writes into a kernel, is left out.
  * Each `write` on the standard output transfers some of the bytes, is interrupted by a signal,
    or fails, as `sys` has it.
  * What a run that returns has written is `image` (`mkbootdisk_image`).
-/
import CProj.Lib.Run
import Mathlib.Data.List.TakeDrop
import Mathlib.Tactic.Common

namespace CProj.BootDisk

/-- How a `write` ends. -/
inductive WriteResult where
  | wrote (n : ℕ)
  /-- `-1` with `EINTR` -/
  | interrupted
  /-- `-1` with another `errno` -/
  | failed
  deriving DecidableEq, Repr

/-- The reasons for which the program exits with `usage`, and a loop that has not ended yet. -/
inductive Exit where
  /-- more data than allowed in partition -/
  | moreData
  /-- the `perror` after a failed `write` -/
  | write
  /-- write hit end of file -/
  | endOfFile
  /-- boot block too large -/
  | bootTooLarge (n : ℕ)
  /-- can't skip to sector `skipto`, already at sector `at` -/
  | cantSkip (skipto nsectors : ℕ)
  | running
  deriving DecidableEq, Repr

/-- An argument after the boot sector. -/
inductive Arg where
  | file (contents : List UInt8)
  /-- `@N` -/
  | skip (sector : ℕ)

/-- The bytes on the standard output, the globals `curoff` and `maxoff`, and the number of calls of
    `write` so far. -/
structure Output where
  out : List UInt8
  curoff : ℕ
  maxoff : ℕ
  calls : ℕ
  deriving DecidableEq, Repr

def SECTORSIZE : ℕ := 512

/-- `zerobuf`. -/
def zerobuf : List UInt8 := List.replicate 512 0

section
variable (sys : ℕ → WriteResult) (fuel : ℕ)

/-- The loop of `diskwrite`. -/
def diskwriteLoop : ℕ → Output → List UInt8 → Except Exit Output
  | 0, _, _ => .error .running
  | n + 1, s, data =>
    if data = [] then .ok s
    else match sys s.calls with
      | .failed => .error .write
      | .interrupted => diskwriteLoop n { s with calls := s.calls + 1 } data
      | .wrote w =>
        -- at most what was asked for is written
        if min w data.length = 0 then .error .endOfFile
        else diskwriteLoop n
          { s with
            out := s.out ++ data.take w
            curoff := s.curoff + min w data.length
            calls := s.calls + 1 }
          (data.drop w)

def diskwrite (s : Output) (data : List UInt8) : Except Exit Output :=
  if s.maxoff ≠ 0 ∧ s.curoff + data.length > s.maxoff then .error .moreData
  else diskwriteLoop sys fuel s data

/-- `n` sectors of zeros. -/
def writeZeros (s : Output) : ℕ → Except Exit Output
  | 0 => .ok s
  | n + 1 => do
    let s ← diskwrite sys fuel s zerobuf
    writeZeros s n

/-- The loop that copies a file in pieces of 4096 bytes; `pos` bytes have been copied. -/
def copyLoop : ℕ → Output → List UInt8 → ℕ → Except Exit (Output × ℕ)
  | 0, _, _, _ => .error .running
  | n + 1, s, f, pos =>
    let buf := f.take 4096
    if buf.length > 0 then do
      let s ← diskwrite sys fuel s buf
      copyLoop n s (f.drop 4096) (pos + buf.length)
    else .ok (s, pos)

/-- What the program does with an argument, after `nsectors` sectors. -/
def writeArg (s : Output) (nsectors : ℕ) : Arg → Except Exit (Output × ℕ)
  | .skip skipto => do
    if nsectors > skipto then throw (.cantSkip skipto nsectors)
    let s ← writeZeros sys fuel s (skipto - nsectors)
    return (s, skipto)
  | .file f => do
    let r ← copyLoop sys fuel fuel s f 0
    if r.2 % 512 ≠ 0 then
      let s ← diskwrite sys fuel r.1 (zerobuf.take (512 - r.2 % 512))
      return (s, nsectors + (r.2 + (512 - r.2 % 512)) / 512)
    else return (r.1, nsectors + r.2 / 512)

/-- The loop over the arguments. -/
def writeArgs (s : Output) (nsectors : ℕ) : List Arg → Except Exit (Output × ℕ)
  | [] => .ok (s, nsectors)
  | a :: as => do
    let r ← writeArg sys fuel s nsectors a
    writeArgs r.1 r.2 as

/-- `mkbootdisk BOOTSECTOR ARG...`, where the file BOOTSECTOR contains `boot`. -/
def mkbootdisk (boot : List UInt8) (args : List Arg) : Except Exit Output := do
  let buf := boot.take 4096
  let n := buf.length
  if n > 510 then throw (.bootTooLarge n)
  let s ← diskwrite sys fuel ⟨[], 0, 0, 0⟩ (buf ++ List.replicate (510 - n) 0 ++ [0x55, 0xAA])
  let r ← writeArgs sys fuel s 1 args
  -- fill out to 1024 sectors
  writeZeros sys fuel r.1 (1024 - r.2)

end

/-! ## What a run writes -/

variable {sys : ℕ → WriteResult} {fuel : ℕ} {s s' : Output} {r : Output × ℕ}
  {data boot kernel : List UInt8}

theorem diskwriteLoop_out (n : ℕ) (h : diskwriteLoop sys n s data = .ok s') :
    s'.out = s.out ++ data ∧ s'.maxoff = s.maxoff := by
  induction n generalizing s data with
  | zero => cases h
  | succ n ih =>
    rw [diskwriteLoop] at h
    by_cases hnil : data = []
    · rw [if_pos hnil] at h
      cases h
      rw [hnil, List.append_nil]
      exact ⟨rfl, rfl⟩
    rw [if_neg hnil] at h
    cases hw : sys s.calls with
    | failed =>
      rw [hw] at h
      cases h
    | interrupted =>
      rw [hw] at h
      exact ih (s := { s with calls := s.calls + 1 }) h
    | wrote w =>
      rw [hw] at h
      simp only at h
      split_ifs at h
      obtain ⟨hout, hmax⟩ := ih h
      rw [List.append_assoc, List.take_append_drop] at hout
      exact ⟨hout, hmax⟩

theorem diskwrite_out (h : diskwrite sys fuel s data = .ok s') : s'.out = s.out ++ data := by
  rw [diskwrite] at h
  split_ifs at h
  exact (diskwriteLoop_out fuel h).1

theorem writeZeros_out (n : ℕ) (h : writeZeros sys fuel s n = .ok s') :
    s'.out = s.out ++ List.replicate (512 * n) 0 := by
  induction n generalizing s with
  | zero =>
    cases h
    simp
  | succ n ih =>
    obtain ⟨t, ht, hrest⟩ := bind_eq_ok.1 h
    have hlen : 512 * (n + 1) = 512 + 512 * n := by omega
    rw [ih hrest, diskwrite_out ht, zerobuf, List.append_assoc, List.replicate_append_replicate,
      hlen]

theorem copyLoop_out (n : ℕ) {f : List UInt8} {pos : ℕ} (h : copyLoop sys fuel n s f pos = .ok r) :
    r.1.out = s.out ++ f ∧ r.2 = pos + f.length := by
  induction n generalizing s f pos with
  | zero => cases h
  | succ n ih =>
    rw [copyLoop] at h
    by_cases hlen : (f.take 4096).length > 0
    · rw [if_pos hlen] at h
      obtain ⟨t, ht, hrest⟩ := bind_eq_ok.1 h
      obtain ⟨hout, hpos⟩ := ih hrest
      rw [diskwrite_out ht, List.append_assoc, List.take_append_drop] at hout
      refine ⟨hout, ?_⟩
      rw [hpos, List.length_take, List.length_drop]
      omega
    · rw [if_neg hlen] at h
      cases h
      rw [List.length_take] at hlen
      obtain rfl : f = [] := List.eq_nil_of_length_eq_zero (by omega)
      exact ⟨(List.append_nil _).symm, rfl⟩

/-- The sectors that a file of `n` bytes fills. -/
def sectors (n : ℕ) : ℕ := (n + 511) / 512

/-- A file is written from a sector boundary to a sector boundary. -/
theorem writeArg_file {nsectors : ℕ} {f : List UInt8}
    (h : writeArg sys fuel s nsectors (.file f) = .ok r) :
    r.1.out = s.out ++ f ++ List.replicate (512 * sectors f.length - f.length) 0 ∧
      r.2 = nsectors + sectors f.length := by
  obtain ⟨q, hq, h⟩ := bind_eq_ok.1 h
  obtain ⟨hout, hpos⟩ := copyLoop_out fuel hq
  rw [Nat.zero_add] at hpos
  rw [hpos] at h
  by_cases hmod : f.length % 512 = 0
  · rw [if_neg (not_not.2 hmod)] at h
    cases h
    have hsectors : sectors f.length = f.length / 512 := by rw [sectors]; omega
    have hzero : 512 * (f.length / 512) - f.length = 0 := by omega
    refine ⟨?_, by rw [hsectors]⟩
    rw [hout, hsectors, hzero, List.replicate_zero, List.append_nil]
  · rw [if_pos hmod] at h
    obtain ⟨t, ht, h⟩ := bind_eq_ok.1 h
    cases h
    have hpad : min (512 - f.length % 512) 512 = 512 * sectors f.length - f.length := by
      rw [sectors]
      omega
    constructor
    · rw [diskwrite_out ht, hout, zerobuf, List.take_replicate, hpad]
    · rw [sectors]
      omega

/-- The first sector of an image. -/
def bootSector (boot : List UInt8) : List UInt8 :=
  boot ++ List.replicate (510 - boot.length) 0 ++ [0x55, 0xAA]

/-- The image of a boot sector and a kernel: 1024 sectors at least. -/
def image (boot kernel : List UInt8) : List UInt8 :=
  bootSector boot ++ (kernel ++
    List.replicate (512 * max (sectors kernel.length) 1023 - kernel.length) 0)

/-- **What `mkbootdisk BOOTSECTOR KERNEL` writes**, whatever happens to its writes. -/
theorem mkbootdisk_image (h : mkbootdisk sys fuel boot [.file kernel] = .ok s) :
    boot.length ≤ 510 ∧ s.out = image boot kernel := by
  rw [mkbootdisk] at h
  by_cases hlarge : (boot.take 4096).length > 510
  · rw [if_pos hlarge] at h
    cases h
  rw [if_neg hlarge] at h
  have hlen : boot.length ≤ 510 := by
    rw [List.length_take] at hlarge
    omega
  have htake : boot.take 4096 = boot := List.take_of_length_le (by omega)
  rw [htake] at h
  obtain ⟨t, ht, h⟩ := bind_eq_ok.1 h
  obtain ⟨q, hq, h⟩ := bind_eq_ok.1 h
  obtain ⟨p, hp, hq⟩ := bind_eq_ok.1 hq
  cases hq
  obtain ⟨hout, hsectors⟩ := writeArg_file hp
  refine ⟨hlen, ?_⟩
  have hpad : 512 * sectors kernel.length - kernel.length + 512 * (1024 - (1 + sectors kernel.length)) =
      512 * max (sectors kernel.length) 1023 - kernel.length := by
    rw [sectors]
    omega
  rw [writeZeros_out _ h, hout, hsectors, diskwrite_out ht, List.nil_append, image, bootSector,
    List.append_assoc _ (List.replicate _ _), List.replicate_append_replicate, hpad,
    List.append_assoc _ kernel]

/-! ## Writes that succeed -/

theorem diskwrite_full (hfuel : 2 ≤ fuel) (hmax : s.maxoff = 0) (data : List UInt8)
    (hlen : data.length ≤ 4096) :
    ∃ s', diskwrite (fun _ => .wrote 4096) fuel s data = .ok s' ∧ s'.maxoff = 0 := by
  obtain ⟨n, rfl⟩ : ∃ n, fuel = n + 2 := ⟨fuel - 2, by omega⟩
  rw [diskwrite, if_neg (fun hn => hn.1 hmax), diskwriteLoop]
  by_cases hnil : data = []
  · rw [if_pos hnil]
    exact ⟨s, rfl, hmax⟩
  · have hpos := List.length_pos_of_ne_nil hnil
    rw [if_neg hnil]
    simp only
    rw [if_neg (by omega), List.drop_of_length_le hlen, diskwriteLoop, if_pos rfl]
    exact ⟨_, rfl, hmax⟩

theorem writeZeros_full (hfuel : 2 ≤ fuel) (n : ℕ) (hmax : s.maxoff = 0) :
    ∃ s', writeZeros (fun _ => .wrote 4096) fuel s n = .ok s' ∧ s'.maxoff = 0 := by
  induction n generalizing s with
  | zero => exact ⟨s, rfl, hmax⟩
  | succ n ih =>
    obtain ⟨t, ht, hmax'⟩ := diskwrite_full hfuel hmax zerobuf
      (by rw [zerobuf, List.length_replicate]; decide)
    rw [writeZeros, ht]
    exact ih hmax'

theorem copyLoop_full (hfuel : 2 ≤ fuel) (n : ℕ) {f : List UInt8} (hn : f.length < n) (pos : ℕ)
    (hmax : s.maxoff = 0) :
    ∃ r, copyLoop (fun _ => .wrote 4096) fuel n s f pos = .ok r ∧ r.1.maxoff = 0 := by
  induction n generalizing s f pos with
  | zero => omega
  | succ n ih =>
    rw [copyLoop]
    by_cases hlen : (f.take 4096).length > 0
    · obtain ⟨t, ht, hmax'⟩ := diskwrite_full hfuel hmax (f.take 4096) (List.length_take_le 4096 f)
      rw [if_pos hlen, ht]
      rw [List.length_take] at hlen
      exact ih (by rw [List.length_drop]; omega) _ hmax'
    · rw [if_neg hlen]
      exact ⟨_, rfl, hmax⟩

theorem writeArg_full {f : List UInt8} (hfuel : f.length + 2 ≤ fuel) (nsectors : ℕ)
    (hmax : s.maxoff = 0) :
    ∃ r, writeArg (fun _ => .wrote 4096) fuel s nsectors (.file f) = .ok r ∧ r.1.maxoff = 0 := by
  have htwo : 2 ≤ fuel := by omega
  obtain ⟨q, hq, hmax'⟩ := copyLoop_full htwo fuel (f := f) (by omega) 0 hmax
  rw [writeArg, hq, ok_bind]
  by_cases hmod : q.2 % 512 ≠ 0
  · obtain ⟨t, ht, hmax''⟩ := diskwrite_full htwo hmax' (zerobuf.take (512 - q.2 % 512))
      (Nat.le_trans (List.length_take_le _ _) (by omega))
    rw [if_pos hmod, ht]
    exact ⟨_, rfl, hmax''⟩
  · rw [if_neg hmod]
    exact ⟨_, rfl, hmax'⟩

/-- **`mkbootdisk` makes an image** of every boot sector that fits, when its writes succeed. -/
theorem mkbootdisk_full (hboot : boot.length ≤ 510) (hfuel : kernel.length + 2 ≤ fuel) :
    ∃ s, mkbootdisk (fun _ => .wrote 4096) fuel boot [.file kernel] = .ok s := by
  have htake : boot.take 4096 = boot := List.take_of_length_le (by omega)
  have hlen : (boot ++ List.replicate (510 - boot.length) 0 ++ [(0x55 : UInt8), 0xAA]).length ≤ 4096 := by
    simp
    omega
  have htwo : 2 ≤ fuel := by omega
  obtain ⟨t, ht, hmax⟩ := diskwrite_full htwo (s := ⟨[], 0, 0, 0⟩) rfl _ hlen
  obtain ⟨q, hq, hmax'⟩ := writeArg_full hfuel 1 hmax
  obtain ⟨u, hu, -⟩ := writeZeros_full htwo (1024 - q.2) hmax'
  refine ⟨u, ?_⟩
  rw [mkbootdisk, htake]
  simp only [if_neg (Nat.not_lt.2 hboot)]
  rw [ht, ok_bind, writeArgs, hq, ok_bind, writeArgs, ok_bind, hu]

end CProj.BootDisk
