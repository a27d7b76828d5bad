/-
  `mkbootdisk -p DISK [FILE | @N]...`: an image written into a partition of an existing disk.

  * `find_partition` searches the partition table of the disk, and the tables of the extended
    partitions that it names, for a JOS kernel partition.  A table is given by its sector and the
    first sector of the outermost extended partition, which is 0 in the first table.
  * A disk is its contents, and `bad` tells which of its sectors cannot be read.  Seeks succeed, a
    read that a signal interrupts is made again, and the stack never overflows.
  * `mkbootdisk_partition`: the image goes to a JOS kernel partition of the disk, and no byte outside
    it changes; a disk that is turned away has no such partition.
-/
import CProj.BootDisk.Booting
import CProj.BootDisk.Mkbootdisk
import Mathlib.Logic.Relation

namespace CProj.BootDisk

/-! ## The search -/

def PTABLE_OFFSET : ℕ := 446
def PTABLE_MAGIC_OFFSET : ℕ := 510
def PTABLE_MAGIC1 : UInt8 := 0x55
def PTABLE_MAGIC2 : UInt8 := 0xAA
def PTYPE_JOS_KERN : UInt8 := 0x27
def PTYPE_DOS_EXTENDED : UInt8 := 0x05
def PTYPE_W95_EXTENDED : UInt8 := 0x0F
def PTYPE_LINUX_EXTENDED : UInt8 := 0x85

/-- The reasons for which the program stops: those of `Exit`, and the ones of `-p`. -/
inductive Failure where
  | exit (e : Exit)
  /-- the `perror` after a failed `read` -/
  | read
  /-- no JOS partition (type 0x27) found! -/
  | noPartition
  /-- nothing to write -/
  | usage
  /-- the search has not ended yet -/
  | searching
  deriving DecidableEq, Repr

/-- What `find_partition` reads of a `Partitiondesc`. -/
structure Partitiondesc where
  type : UInt8
  lbaStart : ℕ
  lbaLength : ℕ
  deriving DecidableEq, Repr

/-- A partition: its number in the message, and its first sector and its length in sectors. -/
structure Partition where
  number : ℕ
  start : ℕ
  length : ℕ
  deriving DecidableEq, Repr

def Partitiondesc.Extended (p : Partitiondesc) : Prop :=
  p.type = PTYPE_DOS_EXTENDED ∨ p.type = PTYPE_W95_EXTENDED ∨ p.type = PTYPE_LINUX_EXTENDED

instance (p : Partitiondesc) : Decidable p.Extended := inferInstanceAs (Decidable (_ ∨ _))

/-- The magic number of a partition sector. -/
def Magic (buf : List UInt8) : Prop :=
  buf.getD PTABLE_MAGIC_OFFSET 0 = PTABLE_MAGIC1 ∧ buf.getD (PTABLE_MAGIC_OFFSET + 1) 0 = PTABLE_MAGIC2

instance (buf : List UInt8) : Decidable (Magic buf) := inferInstanceAs (Decidable (_ ∧ _))

/-- The four entries of the partition sector `buf`. -/
def ptable (buf : List UInt8) : List Partitiondesc :=
  (List.range 4).map fun i =>
    ⟨buf.getD (PTABLE_OFFSET + 16 * i + 4) 0,
      littleEndian (contents buf) (PTABLE_OFFSET + 16 * i + 8) 4,
      littleEndian (contents buf) (PTABLE_OFFSET + 16 * i + 12) 4⟩

/-- The table of the extended partition `p` of the table `t`. -/
def innerTable (t : ℕ × ℕ) (p : Partitiondesc) : ℕ × ℕ :=
  (p.lbaStart + t.2, if t.2 = 0 then p.lbaStart else t.2)

/-- The loop of `find_partition` from the entry `i` of the table `t` on, where `inner` searches the
    table of an extended partition. -/
def searchTable (inner : ℕ × ℕ → ℕ → Except Failure (Option Partition)) (t : ℕ × ℕ) (partoff : ℕ) :
    ℕ → List Partitiondesc → Except Failure (Option Partition)
  | _, [] => .ok none
  | i, p :: ps =>
    if p.lbaLength = 0 then searchTable inner t partoff (i + 1) ps
    else if p.type = PTYPE_JOS_KERN then
      .ok (some ⟨partoff + i + 1, t.1 + p.lbaStart, p.lbaLength⟩)
    else if p.Extended then do
      match ← inner (innerTable t p) (if partoff = 0 then 4 else partoff + 1) with
      | some q => return some q
      | none => searchTable inner t partoff (i + 1) ps
    else searchTable inner t partoff (i + 1) ps

section
variable (disk : List UInt8) (bad : ℕ → Bool)

/-- The sector `sectno`, a `uint32_t`. -/
def sectorAt (sectno : ℕ) : List UInt8 := slice disk (sectno % 2 ^ 32 * SECTORSIZE) SECTORSIZE

def readsect (sectno : ℕ) : Except Failure (List UInt8) :=
  if bad (sectno % 2 ^ 32) ∨ (sectorAt disk sectno).length ≠ SECTORSIZE then .error .read
  else .ok (sectorAt disk sectno)

/-- `find_partition(t.1, t.2, partoff)`.  Nothing keeps a table from naming itself, so that the search
    may go on for ever. -/
def findPartition : ℕ → ℕ × ℕ → ℕ → Except Failure (Option Partition)
  | 0, _, _ => .error .searching
  | fuel + 1, t, partoff => do
    let buf ← readsect disk bad t.1
    if ¬ Magic buf then return none
    searchTable (findPartition fuel) t partoff 0 (ptable buf)

/-- The entry `p` of the table `t` is in use. -/
def Entry (t : ℕ × ℕ) (p : Partitiondesc) : Prop :=
  Magic (sectorAt disk t.1) ∧ p ∈ ptable (sectorAt disk t.1) ∧ p.lbaLength ≠ 0

/-- The table `u` is the one of an extended partition of the table `t`. -/
def Inner (t u : ℕ × ℕ) : Prop := ∃ p, Entry disk t p ∧ p.Extended ∧ u = innerTable t p

/-- The table `t` names the JOS kernel partition `q`. -/
def Names (t : ℕ × ℕ) (q : Partition) : Prop :=
  ∃ p, Entry disk t p ∧ p.type = PTYPE_JOS_KERN ∧ q.start = t.1 + p.lbaStart ∧ q.length = p.lbaLength

/-- A table that the search from the table `t` on comes to names the partition `q`. -/
def Reaches (t : ℕ × ℕ) (q : Partition) : Prop :=
  ∃ u, Relation.ReflTransGen (Inner disk) t u ∧ Names disk u q

end

section
variable {disk : List UInt8} {bad : ℕ → Bool} {t u : ℕ × ℕ} {p : Partitiondesc} {q : Partition}
  {fuel partoff : ℕ} {r : Option Partition} {e : Failure}

theorem Names.reaches (h : Names disk t q) : Reaches disk t q := ⟨t, .refl, h⟩

theorem Reaches.inner (h : Reaches disk u q) (hinner : Inner disk t u) : Reaches disk t q := by
  obtain ⟨v, hv, hq⟩ := h
  exact ⟨v, .head hinner hv, hq⟩

/-- A partition is named by the table itself, or reached through one of its extended partitions. -/
theorem reaches_iff : Reaches disk t q ↔
    Names disk t q ∨ ∃ p, Entry disk t p ∧ p.Extended ∧ Reaches disk (innerTable t p) q := by
  constructor
  · rintro ⟨u, hu, hq⟩
    rcases hu.cases_head with rfl | ⟨v, ⟨p, hp, hext, rfl⟩, hrest⟩
    · exact Or.inl hq
    · exact Or.inr ⟨p, hp, hext, u, hrest, hq⟩
  · rintro (h | ⟨p, hp, hext, h⟩)
    · exact h.reaches
    · exact h.inner ⟨p, hp, hext, rfl⟩

/-- The result of a search is right: it is a partition that the search comes to, and if there is no
    result, there is no such partition. -/
def Right (disk : List UInt8) (t : ℕ × ℕ) : Option Partition → Prop
  | some q => Reaches disk t q
  | none => ∀ q, ¬ Reaches disk t q

section
variable {inner : ℕ × ℕ → ℕ → Except Failure (Option Partition)}

/-- What the loop finds among the entries `ps`. -/
theorem searchTable_spec (hinner : ∀ u off r, inner u off = .ok r → Right disk u r) {i : ℕ}
    {ps : List Partitiondesc} (hps : ∀ p ∈ ps, p.lbaLength ≠ 0 → Entry disk t p)
    (h : searchTable inner t partoff i ps = .ok r) :
    (∀ q, r = some q → Reaches disk t q) ∧ (r = none → ∀ p ∈ ps, p.lbaLength ≠ 0 →
      p.type ≠ PTYPE_JOS_KERN ∧ (p.Extended → ∀ q, ¬ Reaches disk (innerTable t p) q)) := by
  induction ps generalizing i with
  | nil =>
    cases h
    exact ⟨fun _ h => (Option.some_ne_none _ h.symm).elim, fun _ p hp => absurd hp List.not_mem_nil⟩
  | cons p ps ih =>
    have hrest := fun h => ih (i := i + 1) (fun p hp => hps p (List.mem_cons_of_mem _ hp)) h
    have hp := hps p List.mem_cons_self
    rw [searchTable] at h
    by_cases hzero : p.lbaLength = 0
    · -- an entry that is not in use
      rw [if_pos hzero] at h
      refine ⟨(hrest h).1, fun hr p' hp' hne => ?_⟩
      rcases List.mem_cons.1 hp' with rfl | hp'
      · exact absurd hzero hne
      · exact (hrest h).2 hr p' hp' hne
    rw [if_neg hzero] at h
    by_cases hkern : p.type = PTYPE_JOS_KERN
    · rw [if_pos hkern] at h
      cases h
      refine ⟨fun q hq => ?_, fun hr => by cases hr⟩
      cases hq
      exact Names.reaches ⟨p, hp hzero, hkern, rfl, rfl⟩
    rw [if_neg hkern] at h
    by_cases hext : p.Extended
    · rw [if_pos hext] at h
      obtain ⟨r', hr', h⟩ := bind_eq_ok.1 h
      have hright := hinner _ _ _ hr'
      cases r' with
      | some q' =>
        cases h
        refine ⟨fun q hq => ?_, fun hr => by cases hr⟩
        cases hq
        exact Reaches.inner hright ⟨p, hp hzero, hext, rfl⟩
      | none =>
        refine ⟨(hrest h).1, fun hr p' hp' hne => ?_⟩
        rcases List.mem_cons.1 hp' with rfl | hp'
        · exact ⟨hkern, fun _ => hright⟩
        · exact (hrest h).2 hr p' hp' hne
    · -- a partition of another kind
      rw [if_neg hext] at h
      refine ⟨(hrest h).1, fun hr p' hp' hne => ?_⟩
      rcases List.mem_cons.1 hp' with rfl | hp'
      · exact ⟨hkern, fun h => absurd h hext⟩
      · exact (hrest h).2 hr p' hp' hne

end

/-- **The search is right**, whatever the tables name. -/
theorem findPartition_right (h : findPartition disk bad fuel t partoff = .ok r) : Right disk t r := by
  induction fuel generalizing t partoff r with
  | zero => cases h
  | succ fuel ih =>
    obtain ⟨buf, hbuf, h⟩ := bind_eq_ok.1 h
    obtain rfl : buf = sectorAt disk t.1 := by
      rw [readsect] at hbuf
      split_ifs at hbuf
      exact (Except.ok.inj hbuf).symm
    by_cases hmagic : Magic (sectorAt disk t.1)
    · rw [if_neg (not_not.2 hmagic)] at h
      obtain ⟨hsome, hnone⟩ := searchTable_spec (fun u off r => ih)
        (fun p hp hne => (⟨hmagic, hp, hne⟩ : Entry disk t p)) h
      cases r with
      | some q => exact hsome q rfl
      | none =>
        intro q hq
        rcases reaches_iff.1 hq with ⟨p, hp, hkern, -⟩ | ⟨p, hp, hext, hreach⟩
        · exact (hnone rfl p hp.2.1 hp.2.2).1 hkern
        · exact (hnone rfl p hp.2.1 hp.2.2).2 hext q hreach
    · rw [if_pos hmagic] at h
      cases h
      intro q hq
      rcases reaches_iff.1 hq with ⟨p, hp, -⟩ | ⟨p, hp, -⟩
      · exact hmagic hp.1
      · exact hmagic hp.1

/-- The loop fails where the search of an extended partition does. -/
theorem searchTable_error {inner : ℕ × ℕ → ℕ → Except Failure (Option Partition)} {i : ℕ}
    {ps : List Partitiondesc} (h : searchTable inner t partoff i ps = .error e) :
    ∃ p ∈ ps, p.lbaLength ≠ 0 ∧ p.Extended ∧ ∃ off, inner (innerTable t p) off = .error e := by
  induction ps generalizing i with
  | nil => cases h
  | cons p ps ih =>
    have hrest := fun h => (ih (i := i + 1) h).imp fun p' hp' =>
      And.imp_left (List.mem_cons_of_mem p) hp'
    rw [searchTable] at h
    by_cases hzero : p.lbaLength = 0
    · rw [if_pos hzero] at h
      exact hrest h
    rw [if_neg hzero] at h
    by_cases hkern : p.type = PTYPE_JOS_KERN
    · rw [if_pos hkern] at h
      cases h
    rw [if_neg hkern] at h
    by_cases hext : p.Extended
    · rw [if_pos hext] at h
      cases hr : inner (innerTable t p) (if partoff = 0 then 4 else partoff + 1) with
      | error e' =>
        rw [hr] at h
        cases h
        exact ⟨p, List.mem_cons_self, hzero, hext, _, hr⟩
      | ok r =>
        rw [hr, ok_bind] at h
        cases r with
        | some q => cases h
        | none => exact hrest h
    · rw [if_neg hext] at h
      exact hrest h

theorem findPartition_error (h : findPartition disk bad (fuel + 1) t partoff = .error e) :
    e = .read ∨ ∃ p, Entry disk t p ∧ p.Extended ∧
      ∃ off, findPartition disk bad fuel (innerTable t p) off = .error e := by
  rw [findPartition, readsect] at h
  by_cases hbad : bad (t.1 % 2 ^ 32) ∨ (sectorAt disk t.1).length ≠ SECTORSIZE
  · rw [if_pos hbad] at h
    cases h
    exact Or.inl rfl
  rw [if_neg hbad, ok_bind] at h
  by_cases hmagic : Magic (sectorAt disk t.1)
  · rw [if_neg (not_not.2 hmagic)] at h
    obtain ⟨p, hp, hne, hext, hinner⟩ := searchTable_error h
    exact Or.inr ⟨p, ⟨hmagic, hp, hne⟩, hext, hinner⟩
  · rw [if_pos hmagic] at h
    cases h

theorem findPartition_ne_noPartition : findPartition disk bad fuel t partoff ≠ .error .noPartition := by
  induction fuel generalizing t partoff with
  | zero => exact fun h => by cases h
  | succ fuel ih =>
    intro h
    rcases findPartition_error h with h | ⟨p, -, -, off, h⟩
    · cases h
    · exact ih h

theorem Entry.lbaStart_lt (h : Entry disk t p) : p.lbaStart < 2 ^ 32 := by
  obtain ⟨i, -, rfl⟩ := List.mem_map.1 h.2.1
  exact littleEndian_lt _ _ 4

/-- **The search ends** if every extended partition has its table behind the table that names it. -/
theorem findPartition_ends
    (hbehind : ∀ u v, Relation.ReflTransGen (Inner disk) t u → Inner disk u v → u.1 < v.1)
    (h1 : t.1 < 2 ^ 33) (h2 : t.2 < 2 ^ 32) (hfuel : 2 ^ 33 ≤ t.1 + fuel) :
    findPartition disk bad fuel t partoff ≠ .error .searching := by
  induction fuel generalizing t partoff with
  | zero => omega
  | succ fuel ih =>
    intro h
    rcases findPartition_error h with h | ⟨p, hp, hext, off, h⟩
    · cases h
    · have hinner : Inner disk t (innerTable t p) := ⟨p, hp, hext, rfl⟩
      have hlt := hbehind _ _ .refl hinner
      have hstart := hp.lbaStart_lt
      refine ih (fun u v hu => hbehind u v (hu.head hinner)) ?_ ?_ (by omega) h
      · rw [innerTable]
        omega
      · rw [innerTable]
        split_ifs
        · exact hstart
        · exact h2

end

/-! ## The program -/

section
variable (sys : ℕ → WriteResult) (fuel : ℕ) (disk : List UInt8) (bad : ℕ → Bool)

/-- The files and the zeros behind them, without a boot sector in front. -/
def writeImage (s : Output) (args : List Arg) : Except Exit Output := do
  let r ← writeArgs sys fuel s 0 args
  writeZeros sys fuel r.1 (1024 - r.2)

/-- `mkbootdisk -p DISK ARG...`: the partition, and the disk afterwards.  What a run that fails has
    written before is left out. -/
def mkbootdiskPartition (args : List Arg) : Except Failure (Partition × List UInt8) := do
  match ← findPartition disk bad fuel (0, 0) 0 with
  | none => throw .noPartition
  | some q =>
    if args = [] then throw .usage
    match writeImage sys fuel ⟨[], 0, q.length * SECTORSIZE, 0⟩ args with
    | .error e => throw (.exit e)
    | .ok s => return (q, store 0 disk (q.start * SECTORSIZE) s.out)

end

/-! ## What the program writes -/

/-- What the arguments are written as, after `n` sectors. -/
def layout : ℕ → List Arg → List UInt8
  | _, [] => []
  | n, .skip skipto :: as => List.replicate (512 * (skipto - n)) 0 ++ layout skipto as
  | n, .file f :: as =>
    f ++ List.replicate (512 * sectors f.length - f.length) 0 ++ layout (n + sectors f.length) as

/-- The image that the arguments make: 1024 sectors at least. -/
def partitionImage (args : List Arg) : List UInt8 :=
  layout 0 args ++ List.replicate (512 * 1024 - (layout 0 args).length) 0

section
variable {sys : ℕ → WriteResult} {fuel : ℕ} {s s' : Output} {r : Output × ℕ} {args : List Arg}

theorem writeArgs_out {n : ℕ} (h : writeArgs sys fuel s n args = .ok r) :
    r.1.out = s.out ++ layout n args ∧ 512 * n + (layout n args).length = 512 * r.2 := by
  induction args generalizing s n with
  | nil =>
    cases h
    exact ⟨(List.append_nil _).symm, rfl⟩
  | cons a as ih =>
    obtain ⟨x, hx, h⟩ := bind_eq_ok.1 h
    obtain ⟨hout, hlen⟩ := ih h
    cases a with
    | skip skipto =>
      rw [writeArg] at hx
      by_cases hgt : n > skipto
      · rw [if_pos hgt] at hx
        cases hx
      rw [if_neg hgt] at hx
      obtain ⟨y, hy, hx⟩ := bind_eq_ok.1 hx
      cases hx
      have hlen : 512 * skipto + (layout skipto as).length = 512 * r.2 := hlen
      rw [hout, writeZeros_out _ hy, layout, List.append_assoc, List.length_append,
        List.length_replicate]
      exact ⟨rfl, by omega⟩
    | file f =>
      obtain ⟨hfile, hsectors⟩ := writeArg_file hx
      rw [hsectors] at hout hlen
      rw [hout, hfile, layout, List.length_append, List.length_append, List.length_replicate]
      refine ⟨by simp only [List.append_assoc], ?_⟩
      have hle : f.length ≤ 512 * sectors f.length := by
        rw [sectors]
        omega
      omega

theorem writeImage_out (h : writeImage sys fuel s args = .ok s') :
    s'.out = s.out ++ partitionImage args := by
  obtain ⟨r, hr, h⟩ := bind_eq_ok.1 h
  obtain ⟨hout, hlen⟩ := writeArgs_out hr
  have hfill : 512 * (1024 - r.2) = 512 * 1024 - (layout 0 args).length := by omega
  rw [writeZeros_out _ h, hout, hfill, partitionImage, List.append_assoc]

theorem le_length_partitionImage : 512 * 1024 ≤ (partitionImage args).length := by
  rw [partitionImage, List.length_append, List.length_replicate]
  omega

/-! ### The bound on the output -/

section
variable {Inv : Output → Prop}
  (hwrite : ∀ s s' data, Inv s → diskwrite sys fuel s data = .ok s' → Inv s')
include hwrite

theorem writeZeros_inv (n : ℕ) (h : Inv s) (hrun : writeZeros sys fuel s n = .ok s') : Inv s' := by
  induction n generalizing s with
  | zero =>
    cases hrun
    exact h
  | succ n ih =>
    obtain ⟨x, hx, hrun⟩ := bind_eq_ok.1 hrun
    exact ih (hwrite s x _ h hx) hrun

theorem copyLoop_inv (n : ℕ) {f : List UInt8} {pos : ℕ} (h : Inv s)
    (hrun : copyLoop sys fuel n s f pos = .ok r) : Inv r.1 := by
  induction n generalizing s f pos with
  | zero => cases hrun
  | succ n ih =>
    rw [copyLoop] at hrun
    by_cases hlen : (f.take 4096).length > 0
    · rw [if_pos hlen] at hrun
      obtain ⟨x, hx, hrun⟩ := bind_eq_ok.1 hrun
      exact ih (hwrite s x _ h hx) hrun
    · rw [if_neg hlen] at hrun
      cases hrun
      exact h

theorem writeArg_inv {a : Arg} {n : ℕ} (h : Inv s) (hrun : writeArg sys fuel s n a = .ok r) :
    Inv r.1 := by
  cases a with
  | skip skipto =>
    rw [writeArg] at hrun
    by_cases hgt : n > skipto
    · rw [if_pos hgt] at hrun
      cases hrun
    rw [if_neg hgt] at hrun
    obtain ⟨x, hx, hrun⟩ := bind_eq_ok.1 hrun
    cases hrun
    exact writeZeros_inv hwrite _ h hx
  | file f =>
    obtain ⟨x, hx, hrun⟩ := bind_eq_ok.1 hrun
    have hcopied := copyLoop_inv hwrite fuel h hx
    by_cases hmod : x.2 % 512 ≠ 0
    · rw [if_pos hmod] at hrun
      obtain ⟨y, hy, hrun⟩ := bind_eq_ok.1 hrun
      cases hrun
      exact hwrite x.1 y _ hcopied hy
    · rw [if_neg hmod] at hrun
      cases hrun
      exact hcopied

theorem writeArgs_inv {n : ℕ} (h : Inv s) (hrun : writeArgs sys fuel s n args = .ok r) : Inv r.1 := by
  induction args generalizing s n with
  | nil =>
    cases hrun
    exact h
  | cons a as ih =>
    obtain ⟨x, hx, hrun⟩ := bind_eq_ok.1 hrun
    exact ih (writeArg_inv hwrite h hx) hrun

/-- What every write keeps, the whole program keeps. -/
theorem writeImage_inv (h : Inv s) (hrun : writeImage sys fuel s args = .ok s') : Inv s' := by
  obtain ⟨x, hx, hrun⟩ := bind_eq_ok.1 hrun
  exact writeZeros_inv hwrite _ (writeArgs_inv hwrite h hx) hrun

end

/-- The offset is the one of the next byte, and at most `M` bytes have been written. -/
structure Bounded (M : ℕ) (s : Output) : Prop where
  curoff : s.curoff = s.out.length
  maxoff : s.maxoff = M
  le : s.out.length ≤ M

theorem diskwriteLoop_curoff (n : ℕ) {data : List UInt8} (hoff : s.curoff = s.out.length)
    (h : diskwriteLoop sys n s data = .ok s') : s'.curoff = s'.out.length := by
  induction n generalizing s data with
  | zero => cases h
  | succ n ih =>
    rw [diskwriteLoop] at h
    by_cases hnil : data = []
    · rw [if_pos hnil] at h
      cases h
      exact hoff
    rw [if_neg hnil] at h
    cases hw : sys s.calls with
    | failed =>
      rw [hw] at h
      cases h
    | interrupted =>
      rw [hw] at h
      exact ih (s := { s with calls := s.calls + 1 }) hoff h
    | wrote w =>
      rw [hw] at h
      simp only at h
      split_ifs at h
      refine ih ?_ h
      rw [List.length_append, List.length_take, hoff]

theorem Bounded.diskwrite {M : ℕ} (hM : M ≠ 0) (h : Bounded M s) {data : List UInt8}
    (hw : diskwrite sys fuel s data = .ok s') : Bounded M s' := by
  have hout := diskwrite_out hw
  rw [BootDisk.diskwrite] at hw
  by_cases hmore : s.maxoff ≠ 0 ∧ s.curoff + data.length > s.maxoff
  · rw [if_pos hmore] at hw
    cases hw
  rw [if_neg hmore] at hw
  refine ⟨diskwriteLoop_curoff fuel h.curoff hw, (diskwriteLoop_out fuel hw).2.trans h.maxoff, ?_⟩
  rw [h.maxoff, h.curoff] at hmore
  rw [hout, List.length_append]
  omega

theorem Bounded.writeImage {M : ℕ} (hM : M ≠ 0) (h : Bounded M s)
    (hrun : writeImage sys fuel s args = .ok s') : Bounded M s' :=
  writeImage_inv (fun _ _ _ h hw => h.diskwrite hM hw) h hrun

/-! ### The disk afterwards -/

variable {disk disk' : List UInt8} {bad : ℕ → Bool} {q : Partition}

/-- The image is in the partition `q` of the disk, and nothing else has changed. -/
structure Installed (disk : List UInt8) (args : List Arg) (q : Partition) (disk' : List UInt8) :
    Prop where
  partition : Reaches disk (0, 0) q
  fits : (partitionImage args).length ≤ 512 * q.length
  image : slice disk' (512 * q.start) (partitionImage args).length = partitionImage args
  others : ∀ i < disk.length, i < 512 * q.start ∨ 512 * (q.start + q.length) ≤ i → disk'[i]? = disk[i]?

theorem Reaches.length_ne_zero {t : ℕ × ℕ} (h : Reaches disk t q) : q.length ≠ 0 := by
  obtain ⟨u, -, p, hp, -, -, hlen⟩ := h
  rw [hlen]
  exact hp.2.2

/-- The image in the partition, and the rest of the disk. -/
theorem installed (hreach : Reaches disk (0, 0) q)
    (hrun : writeImage sys fuel ⟨[], 0, q.length * SECTORSIZE, 0⟩ args = .ok s) :
    Installed disk args q (store 0 disk (q.start * SECTORSIZE) s.out) := by
  have hM : q.length * SECTORSIZE ≠ 0 := Nat.mul_ne_zero hreach.length_ne_zero (by decide)
  have hstart : Bounded (q.length * SECTORSIZE) ⟨[], 0, q.length * SECTORSIZE, 0⟩ :=
    ⟨rfl, rfl, Nat.zero_le _⟩
  have hbound := hstart.writeImage hM hrun
  have hout : s.out = partitionImage args := writeImage_out hrun
  have hle := hbound.le
  rw [hout, SECTORSIZE, Nat.mul_comm] at hle
  rw [hout, SECTORSIZE, Nat.mul_comm]
  refine ⟨hreach, hle, slice_store, fun i hi hout => ?_⟩
  rcases hout with hlt | hge
  · exact getElem?_store_lt hlt hi
  · exact getElem?_store_ge (by omega)

/-- What stops the program. -/
theorem mkbootdiskPartition_error {e : Failure}
    (h : mkbootdiskPartition sys fuel disk bad args = .error e) :
    findPartition disk bad fuel (0, 0) 0 = .error e ∨
      e = .noPartition ∧ findPartition disk bad fuel (0, 0) 0 = .ok none ∨
      e = .usage ∨ ∃ e', e = .exit e' := by
  rw [mkbootdiskPartition] at h
  cases hfind : findPartition disk bad fuel (0, 0) 0 with
  | error e' =>
    rw [hfind] at h
    cases h
    exact Or.inl rfl
  | ok r =>
    rw [hfind, ok_bind] at h
    cases r with
    | none =>
      cases h
      exact Or.inr (Or.inl ⟨rfl, rfl⟩)
    | some q =>
      simp only at h
      by_cases hnil : args = []
      · rw [if_pos hnil] at h
        cases h
        exact Or.inr (Or.inr (Or.inl rfl))
      rw [if_neg hnil] at h
      cases hrun : writeImage sys fuel ⟨[], 0, q.length * SECTORSIZE, 0⟩ args with
      | error e' =>
        rw [hrun] at h
        cases h
        exact Or.inr (Or.inr (Or.inr ⟨e', rfl⟩))
      | ok s =>
        rw [hrun] at h
        cases h

theorem mkbootdiskPartition_ok (h : mkbootdiskPartition sys fuel disk bad args = .ok (q, disk')) :
    findPartition disk bad fuel (0, 0) 0 = .ok (some q) ∧ ∃ s,
      writeImage sys fuel ⟨[], 0, q.length * SECTORSIZE, 0⟩ args = .ok s ∧
      disk' = store 0 disk (q.start * SECTORSIZE) s.out := by
  obtain ⟨r, hfind, h⟩ := bind_eq_ok.1 h
  cases r with
  | none => cases h
  | some q' =>
    simp only at h
    by_cases hnil : args = []
    · rw [if_pos hnil] at h
      cases h
    rw [if_neg hnil] at h
    cases hrun : writeImage sys fuel ⟨[], 0, q'.length * SECTORSIZE, 0⟩ args with
    | error e =>
      rw [hrun] at h
      cases h
    | ok s =>
      rw [hrun] at h
      cases h
      exact ⟨hfind, s, hrun, rfl⟩

/-- **The program writes into a JOS kernel partition, and nowhere else**, whatever happens to its
    writes; the partition has at least 1024 sectors.  If it finds no such partition, there is none, and
    its search ends if the table of every extended partition is behind the table that names it. -/
theorem mkbootdisk_partition (sys : ℕ → WriteResult) (fuel : ℕ) (disk : List UInt8) (bad : ℕ → Bool)
    (args : List Arg) :
    (∀ q disk', mkbootdiskPartition sys fuel disk bad args = .ok (q, disk') →
      Installed disk args q disk' ∧ 1024 ≤ q.length) ∧
    (mkbootdiskPartition sys fuel disk bad args = .error .noPartition →
      ∀ q, ¬ Reaches disk (0, 0) q) ∧
    ((∀ t u, Relation.ReflTransGen (Inner disk) (0, 0) t → Inner disk t u → t.1 < u.1) →
      2 ^ 33 ≤ fuel → mkbootdiskPartition sys fuel disk bad args ≠ .error .searching) := by
  refine ⟨fun q disk' h => ?_, fun h => ?_, fun hbehind hfuel h => ?_⟩
  · obtain ⟨hfind, s, hrun, rfl⟩ := mkbootdiskPartition_ok h
    have hinst := installed (findPartition_right hfind) hrun
    have hmin : 512 * 1024 ≤ (partitionImage args).length := le_length_partitionImage
    have hfits := hinst.fits
    exact ⟨hinst, by omega⟩
  · rcases mkbootdiskPartition_error h with h | ⟨-, h⟩ | h | ⟨e, h⟩
    · exact absurd h findPartition_ne_noPartition
    · exact findPartition_right h
    · cases h
    · cases h
  · rcases mkbootdiskPartition_error h with h | ⟨h, -⟩ | h | ⟨e, h⟩
    · exact findPartition_ends hbehind (by decide) (by decide) (by omega) h
    · cases h
    · cases h
    · cases h

/-! ### Images that fit -/

/-- No argument skips back, from `n` sectors on. -/
def Forward : ℕ → List Arg → Prop
  | _, [] => True
  | n, .skip skipto :: as => n ≤ skipto ∧ Forward skipto as
  | n, .file f :: as => Forward (n + sectors f.length) as

section
variable {M : ℕ} (hM : M ≠ 0) (hfuel : 2 ≤ fuel)
include hM hfuel

theorem Bounded.diskwrite_fits (h : Bounded M s) (data : List UInt8) (hlen : data.length ≤ 4096)
    (hroom : s.out.length + data.length ≤ M) :
    ∃ s', BootDisk.diskwrite (fun _ => .wrote 4096) fuel s data = .ok s' ∧ Bounded M s' ∧
      s'.out.length = s.out.length + data.length := by
  have hok : ∃ s', BootDisk.diskwrite (fun _ => .wrote 4096) fuel s data = .ok s' := by
    obtain ⟨n, rfl⟩ : ∃ n, fuel = n + 2 := ⟨fuel - 2, by omega⟩
    have hmore : ¬ (s.maxoff ≠ 0 ∧ s.curoff + data.length > s.maxoff) := by
      rw [h.maxoff, h.curoff]
      omega
    rw [BootDisk.diskwrite, if_neg hmore, diskwriteLoop]
    by_cases hnil : data = []
    · rw [if_pos hnil]
      exact ⟨s, rfl⟩
    · have hpos := List.length_pos_of_ne_nil hnil
      rw [if_neg hnil]
      simp only
      rw [if_neg (by omega), List.drop_of_length_le hlen, diskwriteLoop, if_pos rfl]
      exact ⟨_, rfl⟩
  obtain ⟨s', hs'⟩ := hok
  exact ⟨s', hs', h.diskwrite hM hs', by rw [diskwrite_out hs', List.length_append]⟩

theorem Bounded.writeZeros_fits (h : Bounded M s) (n : ℕ) (hroom : s.out.length + 512 * n ≤ M) :
    ∃ s', writeZeros (fun _ => .wrote 4096) fuel s n = .ok s' := by
  induction n generalizing s with
  | zero => exact ⟨s, rfl⟩
  | succ n ih =>
    have hlen : zerobuf.length = 512 := List.length_replicate
    obtain ⟨x, hx, hbound, hout⟩ := h.diskwrite_fits hM hfuel zerobuf (by omega) (by omega)
    rw [writeZeros, hx, ok_bind]
    exact ih hbound (by omega)

theorem Bounded.copyLoop_fits (h : Bounded M s) (n : ℕ) {f : List UInt8} (hn : f.length < n) (pos : ℕ)
    (hroom : s.out.length + f.length ≤ M) :
    ∃ r, copyLoop (fun _ => .wrote 4096) fuel n s f pos = .ok r := by
  induction n generalizing s f pos with
  | zero => omega
  | succ n ih =>
    rw [copyLoop]
    by_cases hlen : (f.take 4096).length > 0
    · have htake : (f.take 4096).length = min 4096 f.length := List.length_take
      obtain ⟨x, hx, hbound, hout⟩ := h.diskwrite_fits hM hfuel (f.take 4096) (by omega)
        (by omega)
      rw [if_pos hlen, hx, ok_bind]
      refine ih hbound ?_ _ ?_ <;>
      · rw [List.length_drop]
        omega
    · rw [if_neg hlen]
      exact ⟨_, rfl⟩

theorem Bounded.writeArg_file_fits (h : Bounded M s) {f : List UInt8} (hf : f.length < fuel) (n : ℕ)
    (hroom : s.out.length + 512 * sectors f.length ≤ M) :
    ∃ r, writeArg (fun _ => .wrote 4096) fuel s n (.file f) = .ok r := by
  rw [sectors] at hroom
  obtain ⟨x, hx⟩ := h.copyLoop_fits hM hfuel fuel hf 0 (by omega)
  obtain ⟨hout, hpos⟩ := copyLoop_out fuel hx
  have hbound : Bounded M x.1 := copyLoop_inv (fun _ _ _ h hw => h.diskwrite hM hw) fuel h hx
  rw [writeArg, hx, ok_bind]
  by_cases hmod : x.2 % 512 ≠ 0
  · have hzeros : (zerobuf.take (512 - x.2 % 512)).length = 512 - x.2 % 512 := by
      rw [zerobuf, List.take_replicate, List.length_replicate]
      omega
    have hlen : x.1.out.length = s.out.length + f.length := by rw [hout, List.length_append]
    obtain ⟨y, hy, -⟩ := hbound.diskwrite_fits hM hfuel (zerobuf.take (512 - x.2 % 512))
      (by omega) (by omega)
    rw [if_pos hmod, hy]
    exact ⟨_, rfl⟩
  · rw [if_neg hmod]
    exact ⟨_, rfl⟩

theorem Bounded.writeArgs_fits (h : Bounded M s) {n : ℕ} (hforward : Forward n args)
    (hf : ∀ f, Arg.file f ∈ args → f.length < fuel)
    (hroom : s.out.length + (layout n args).length ≤ M) :
    ∃ r, writeArgs (fun _ => .wrote 4096) fuel s n args = .ok r := by
  induction args generalizing s n with
  | nil => exact ⟨_, rfl⟩
  | cons a as ih =>
    have hrest : ∀ f, Arg.file f ∈ as → f.length < fuel := fun f hmem =>
      hf f (List.mem_cons_of_mem _ hmem)
    cases a with
    | skip skipto =>
      rw [layout, List.length_append, List.length_replicate] at hroom
      obtain ⟨x, hx⟩ := h.writeZeros_fits hM hfuel (skipto - n) (by omega)
      have hbound : Bounded M x := writeZeros_inv (fun _ _ _ h hw => h.diskwrite hM hw) _ h hx
      have harg : writeArg (fun _ => .wrote 4096) fuel s n (.skip skipto) = .ok (x, skipto) := by
        rw [writeArg, if_neg (Nat.not_lt.2 hforward.1)]
        simp only [hx, ok_bind]
        rfl
      rw [writeArgs, harg, ok_bind]
      refine ih hbound hforward.2 hrest ?_
      simp only
      rw [writeZeros_out _ hx, List.length_append, List.length_replicate]
      omega
    | file f =>
      have hle : f.length ≤ 512 * sectors f.length := by
        rw [sectors]
        omega
      rw [layout, List.length_append, List.length_append, List.length_replicate] at hroom
      obtain ⟨x, hx⟩ := h.writeArg_file_fits hM hfuel (hf f List.mem_cons_self) n (by omega)
      have hbound : Bounded M x.1 := writeArg_inv (fun _ _ _ h hw => h.diskwrite hM hw) h hx
      obtain ⟨hout, hsectors⟩ := writeArg_file hx
      rw [writeArgs, hx, ok_bind, hsectors]
      refine ih hbound hforward hrest ?_
      rw [hout, List.length_append, List.length_append, List.length_replicate]
      omega

theorem Bounded.writeImage_fits (h : Bounded M s) (hforward : Forward 0 args)
    (hf : ∀ f, Arg.file f ∈ args → f.length < fuel)
    (hroom : s.out.length + (partitionImage args).length ≤ M) :
    ∃ s', BootDisk.writeImage (fun _ => .wrote 4096) fuel s args = .ok s' := by
  rw [partitionImage, List.length_append, List.length_replicate] at hroom
  obtain ⟨x, hx⟩ := h.writeArgs_fits hM hfuel hforward hf (by omega)
  have hbound : Bounded M x.1 := writeArgs_inv (fun _ _ _ h hw => h.diskwrite hM hw) h hx
  obtain ⟨hout, hsectors⟩ := writeArgs_out hx
  obtain ⟨y, hy⟩ := hbound.writeZeros_fits hM hfuel (1024 - x.2) (by
    rw [hout, List.length_append]
    omega)
  exact ⟨y, by rw [BootDisk.writeImage, hx, ok_bind, hy]⟩

end

/-- **An image that fits is written**, when the writes succeed. -/
theorem mkbootdiskPartition_fits (hfuel : 2 ≤ fuel)
    (hfind : findPartition disk bad fuel (0, 0) 0 = .ok (some q)) (hargs : args ≠ [])
    (hforward : Forward 0 args) (hf : ∀ f, Arg.file f ∈ args → f.length < fuel)
    (hroom : (partitionImage args).length ≤ 512 * q.length) : ∃ disk',
      mkbootdiskPartition (fun _ => .wrote 4096) fuel disk bad args = .ok (q, disk') := by
  have hM : q.length * SECTORSIZE ≠ 0 :=
    Nat.mul_ne_zero (Reaches.length_ne_zero (findPartition_right hfind)) (by decide)
  have hstart : Bounded (q.length * SECTORSIZE) ⟨[], 0, q.length * SECTORSIZE, 0⟩ :=
    ⟨rfl, rfl, Nat.zero_le _⟩
  obtain ⟨s, hs⟩ := hstart.writeImage_fits hM hfuel hforward hf (by
    rw [List.length_nil, SECTORSIZE]
    omega)
  refine ⟨store 0 disk (q.start * SECTORSIZE) s.out, ?_⟩
  rw [mkbootdiskPartition, hfind, ok_bind]
  simp only
  rw [if_neg hargs, hs]
  rfl

/-- A sector with a partition table whose first entry is of the type `type`, from the next sector
    on, over 1024 sectors. -/
def tableSector (type : UInt8) : List UInt8 :=
  List.replicate 450 0 ++ [type] ++ List.replicate 3 0 ++ [1, 0, 0, 0, 0, 4, 0, 0] ++
    List.replicate 48 0 ++ [0x55, 0xAA]

/-- The start of a disk with a JOS kernel partition in an extended partition. -/
def smallDisk : List UInt8 := tableSector PTYPE_DOS_EXTENDED ++ tableSector PTYPE_JOS_KERN

theorem findPartition_smallDisk :
    findPartition smallDisk (fun _ => false) 4 (0, 0) 0 = .ok (some ⟨5, 2, 1024⟩) := by
  decide +kernel

/-- A file of three bytes is written to the first sector of the partition. -/
theorem mkbootdisk_partition_smallDisk : ∃ disk',
    mkbootdiskPartition (fun _ => .wrote 4096) 4 smallDisk (fun _ => false)
      [.file [1, 2, 3], .skip 3] = .ok (⟨5, 2, 1024⟩, disk') ∧
    Installed smallDisk [.file [1, 2, 3], .skip 3] ⟨5, 2, 1024⟩ disk' := by
  have hlen : (partitionImage [.file [1, 2, 3], .skip 3]).length ≤ 512 * 1024 := by
    simp only [partitionImage, layout, sectors, List.length_append, List.length_replicate,
      List.length_cons, List.length_nil]
    omega
  have hshort : ∀ f, Arg.file f ∈ [Arg.file [1, 2, 3], .skip 3] → f.length < 4 := by
    intro f hf
    rcases List.mem_pair.1 hf with h | h
    · cases h
      decide
    · cases h
  obtain ⟨disk', hrun⟩ := mkbootdiskPartition_fits (by decide) findPartition_smallDisk
    (List.cons_ne_nil (Arg.file [1, 2, 3]) [.skip 3]) ⟨by decide, trivial⟩ hshort hlen
  exact ⟨disk', hrun, ((mkbootdisk_partition _ 4 smallDisk _ _).1 _ disk' hrun).1⟩

end

end CProj.BootDisk
