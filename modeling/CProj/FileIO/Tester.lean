/-
  `io300_test.c`: the random tests of an implementation of `io300.h`.

  * An implementation is three functions (`Impl`); the test performs random calls on it and on an
    array, compares what the calls return with the array, and in the end the file with it.
  * `Follows` says that an implementation cannot be told from the file of `Logical` by the calls
    that the test makes.  The test accepts every such implementation (`runTest_accepts`): `naive.c`
    with all options, and `student.c` as long as the seeks of the test stay in the file.  The size
    of a write, which `main` does not compare with a bound, has to be an `int`.
-/
import CProj.FileIO.Cat
import CProj.FileIO.Naive
import CProj.FileIO.TestOptions

namespace CProj.FileIO

/-! ## Implementations -/

structure Impl (σ : Type) where
  io300Open : List UInt8 → Except Abort σ
  call : σ → Op → Except Abort (Reply × σ)
  /-- the value returned, and the file on disk -/
  io300Close : σ → Except Abort (ℤ × List UInt8)

/-- `naive.c`, where `io300_close` leaves the descriptor open. -/
def Naive.impl (sys : Sys) : Impl Os where
  io300Open disk := .ok ⟨disk, 0, 0⟩
  call := Naive.call sys
  io300Close os := .ok (0, os.data)

/-- `student.c`, where `malloc` returns a buffer holding `garbage`. -/
def Student.impl (CACHE_SIZE : ℕ) (sys : Sys) (fuel : ℕ) (garbage : List UInt8) :
    Impl (Student.Io300File Os) where
  io300Open disk := Student.io300Open CACHE_SIZE sys disk garbage
  call := Student.call CACHE_SIZE sys fuel
  io300Close f := do
    let (r, f) ← Student.io300Close CACHE_SIZE sys f
    return (r, f.os.data)

namespace Tester

/-! ## The test -/

def UCHAR_MAX : ℕ := 255

/-- The variables of the test; `calls` is the number of calls of `rand`. -/
structure Test (σ : Type) where
  file : σ
  loc : ℕ
  contents : List UInt8
  fileSize : ℕ
  calls : ℕ

section
variable {σ : Type} (impl : Impl σ) (o : Options) (rand : ℕ → ℕ)

/-- `n` bytes, each `rand() % UCHAR_MAX`. -/
def randBytes (calls n : ℕ) : List UInt8 :=
  (List.range n).map fun k => UInt8.ofNat (rand (calls + k) % UCHAR_MAX)

def performReadc (t : Test σ) : Except Abort (ℤ × Test σ) := do
  let (r, file) ← impl.call t.file .readc
  let t := { t with file := file }
  if r.ret < 0 then
    if t.loc < t.fileSize then return (-1, t)
    return (0, t)
  else
    if t.loc = t.fileSize then return (-1, t)
    match t.contents[t.loc]? with
    | none => .error .outOfBounds
    | some b => if r.ret ≠ b.toNat then return (-1, t) else return (0, { t with loc := t.loc + 1 })

/-- A call that fails ends with 1, which `test_operations` takes for success. -/
def performWritec (t : Test σ) : Except Abort (ℤ × Test σ) :=
  if t.loc < o.maxSize then do
    let bs := randBytes rand t.calls 1
    let t := { t with contents := store 0 t.contents t.loc bs, calls := t.calls + 1 }
    let (r, file) ← impl.call t.file (.writec (bs.headD 0).toNat)
    let t := { t with file := file }
    if r.ret = -1 then return (1, t)
    let t := { t with loc := t.loc + 1 }
    return (0, { t with fileSize := max t.fileSize t.loc })
  else .ok (0, t)

/-- The size of a buffer, an `int`: the one of the options, or a random one. -/
def bufferSize (size : ℕ) (t : Test σ) : ℤ × Test σ :=
  if size > 0 then (toInt size, t)
  else (rand t.calls % MAX_BLOCK_SIZE + 1, { t with calls := t.calls + 1 })

def performRead (t : Test σ) : Except Abort (ℤ × Test σ) := do
  let (bufferSize, t) := bufferSize rand o.readSize t
  -- `buffer[buffer_size]`
  if bufferSize < 1 then .error .outOfBounds
  let (r, file) ← impl.call t.file (.read bufferSize.toNat)
  let t := { t with file := file }
  let bytesRead := toInt r.ret
  if bytesRead > bufferSize then return (-1, t)
  else if bytesRead < 0 then return (-1, t)
  else if bytesRead = 0 then
    if t.loc < t.fileSize then return (-1, t)
    return (0, t)
  else
    if t.loc = t.fileSize then return (-1, t)
    if t.loc + bytesRead > t.fileSize then return (-1, t)
    if r.buff.take bytesRead.toNat ≠ slice t.contents t.loc bytesRead.toNat then return (-1, t)
    return (0, { t with loc := t.loc + bytesRead.toNat })

def performWrite (t : Test σ) : Except Abort (ℤ × Test σ) := do
  let (bufferSize, t) := bufferSize rand o.writeSize t
  -- the sum is a `size_t`
  let bufferSize :=
    if (t.loc + bufferSize) % 2 ^ 64 > o.maxSize then toInt (o.maxSize - t.loc) else bufferSize
  let bs := randBytes rand t.calls bufferSize.toNat
  let t := { t with contents := store 0 t.contents t.loc bs, calls := t.calls + bufferSize.toNat }
  -- a negative size is one of more than 2^63 bytes
  if bufferSize < 0 then .error .outOfBounds
  let (r, file) ← impl.call t.file (.write bs)
  let t := { t with file := file }
  let bytesWritten := toInt r.ret
  if bytesWritten > bufferSize then return (-1, t)
  else if bytesWritten < bufferSize then return (-1, t)
  else
    let t := { t with loc := t.loc + bytesWritten.toNat }
    return (0, { t with fileSize := max t.fileSize t.loc })

def perform (t : Test σ) : Operation → Except Abort (ℤ × Test σ)
  | .readc => performReadc impl t
  | .writec => performWritec impl o rand t
  | .read => performRead impl o rand t
  | .write => performWrite impl o rand t

/-- The seek in front of an operation. -/
def testSeek (t : Test σ) : Except Abort (ℤ × Test σ) :=
  if o.seeking then do
    let t := { t with loc := rand t.calls % o.maxSize, calls := t.calls + 1 }
    let (r, file) ← impl.call t.file (.seek t.loc)
    return (if r.ret < 0 then -1 else 0, { t with file := file })
  else .ok (0, t)

/-- `test_operations`, for `n` more operations. -/
def testOperations : ℕ → Test σ → Except Abort (ℤ × Test σ)
  | 0, t => .ok (0, t)
  | n + 1, t => do
    let (r, t) ← testSeek impl o rand t
    if r < 0 then return (-1, t)
    -- randomly choose an operation to test
    match o.operations[rand t.calls % o.operations.length]? with
    | none => .error .outOfBounds
    | some op =>
      let (r, t) ← perform impl o rand { t with calls := t.calls + 1 } op
      if r < 0 then return (-1, t)
      testOperations n t

/-- The test, after its options have been read: the exit status. -/
def runTest : Except Abort ℤ := do
  let generated := randBytes rand 0 o.fileSize
  let contents := generated ++ List.replicate (o.maxSize - o.fileSize) 0
  let out ← impl.io300Open generated
  let (r, t) ← testOperations impl o rand o.numOps ⟨out, 0, contents, o.fileSize, o.fileSize⟩
  if r < 0 then return 1
  let (r, disk) ← impl.io300Close t.file
  if r ≠ 0 then return 1
  -- `verify_contents`
  if disk = t.contents.take t.fileSize then return 0 else return 1

/-- `main`: the exit status. -/
def main (cl : CommandLine) : Except Abort ℤ :=
  match options cl with
  | .error (.exit status) => .ok status
  | .error (.abort a) => .error a
  | .ok o => runTest impl o rand

end

end Tester

/-! ## Implementations that follow the file -/

/-- What the call should return. -/
def Logical.reply (l : Logical) : Op → Reply
  | .seek pos => ⟨pos, []⟩
  | .readc => ⟨(l.contents[l.head]?).elim (-1) fun b => b.toNat, []⟩
  | .read sz => ⟨(slice l.contents l.head sz).length, slice l.contents l.head sz⟩
  | .writec ch => ⟨ch, []⟩
  | .write buff => ⟨buff.length, []⟩

namespace Tester

/-- The calls that a test with these options makes. -/
def Options.Uses (o : Options) (l : Logical) : Op → Prop
  | .seek pos => o.seeking = true ∧ 0 ≤ pos ∧ pos < o.maxSize ∧ pos < 2 ^ 31
  | .read sz => sz ≤ MAX_BLOCK_SIZE
  | .write buff =>
    buff.length ≤ max o.writeSize MAX_BLOCK_SIZE ∧ l.head + buff.length ≤ o.maxSize
  | .writec _ => l.head < o.maxSize
  | .readc => True

/-- The implementation, in a state with `R`, answers the calls of the test as the file does. -/
structure Follows {σ : Type} (impl : Impl σ) (o : Options) (R : σ → Logical → Prop) : Prop where
  opens : ∀ disk, disk.length = o.fileSize → ∃ s, impl.io300Open disk = .ok s ∧ R s ⟨disk, 0⟩
  calls : ∀ s l op, R s l → o.Uses l op →
    ∃ s', impl.call s op = .ok (l.reply op, s') ∧ R s' (l.after op (l.reply op))
  closes : ∀ s l, R s l → impl.io300Close s = .ok (0, l.contents)

section
variable {σ : Type} {impl : Impl σ} {o : Options} {rand : ℕ → ℕ} {R : σ → Logical → Prop} {t : Test σ}

/-- The file is the part of the array that has been written, and behind it the array is 0. -/
structure Agrees (o : Options) (R : σ → Logical → Prop) (t : Test σ) : Prop where
  file : R t.file ⟨t.contents.take t.fileSize, t.loc⟩
  length : t.contents.length = o.maxSize
  size : t.fileSize ≤ o.maxSize
  zero : ∀ i, t.fileSize ≤ i → i < o.maxSize → t.contents[i]? = some 0
  loc : t.loc ≤ t.fileSize ∨ t.loc < o.maxSize

theorem Agrees.loc_le (h : Agrees o R t) : t.loc ≤ o.maxSize := by
  have h1 := h.size
  rcases h.loc with h2 | h2 <;> omega

theorem Agrees.length_take (h : Agrees o R t) : (t.contents.take t.fileSize).length = t.fileSize := by
  have h1 := h.length
  have h2 := h.size
  rw [List.length_take]
  omega

/-- Bytes stored in the array are stored in the file. -/
theorem Agrees.store (h : Agrees o R t) (bs : List UInt8) (hfit : t.loc + bs.length ≤ o.maxSize)
    (hnil : bs = [] → t.loc ≤ t.fileSize) :
    store 0 (t.contents.take t.fileSize) t.loc bs =
      (CProj.store 0 t.contents t.loc bs).take (max t.fileSize (t.loc + bs.length)) ∧
    (CProj.store 0 t.contents t.loc bs).length = o.maxSize ∧
    ∀ i, max t.fileSize (t.loc + bs.length) ≤ i → i < o.maxSize →
      (CProj.store 0 t.contents t.loc bs)[i]? = some 0 := by
  have hlen := h.length
  have htake := h.length_take
  rcases eq_or_ne bs [] with rfl | hne
  · have hle := hnil rfl
    simp only [List.length_nil, Nat.add_zero, Nat.max_eq_left hle, store_nil]
    exact ⟨trivial, hlen, h.zero⟩
  · refine ⟨List.ext_getElem? fun i => ?_, ?_, fun i hi hlt => ?_⟩
    · rw [List.getElem?_take, getElem?_store hne, getElem?_store hne, htake, List.getElem?_take, hlen]
      -- between the end of the file and the bytes stored, both sides are 0
      split_ifs <;> first | rfl | omega | exact (h.zero i (by omega) (by omega)).symm
    · rw [length_store hne, hlen]
      omega
    · rw [getElem?_store hne, if_neg (by omega), if_neg (by omega)]
      exact h.zero i (by omega) hlt

theorem Agrees.calls (h : Agrees o R t) (c : ℕ) : Agrees o R { t with calls := c } :=
  ⟨h.file, h.length, h.size, h.zero, h.loc⟩

theorem toInt_of_lt {pos : ℤ} (h0 : 0 ≤ pos) (h : pos < 2 ^ 31) : toInt pos = pos := by
  rw [toInt, Int.bmod_eq_of_le] <;> omega

theorem toInt_natCast {n : ℕ} (h : n < 2 ^ 31) : toInt n = n :=
  toInt_of_lt (Int.natCast_nonneg n) (by omega)

theorem length_randBytes (c n : ℕ) : (randBytes rand c n).length = n := by
  rw [randBytes, List.length_map, List.length_range]

theorem bufferSize_spec (rand : ℕ → ℕ) {size : ℕ} (hsize : size < 2 ^ 31) (t : Test σ) :
    ∃ (sz : ℕ) (c : ℕ), bufferSize rand size t = ((sz : ℤ), { t with calls := c }) ∧ 0 < sz ∧
      sz ≤ max size MAX_BLOCK_SIZE ∧ sz < 2 ^ 31 := by
  rw [bufferSize]
  split_ifs with hpos
  · rw [toInt_natCast hsize]
    exact ⟨size, t.calls, rfl, hpos, le_max_left _ _, hsize⟩
  · have := Nat.mod_lt (rand t.calls) (show 0 < MAX_BLOCK_SIZE by decide)
    refine ⟨rand t.calls % MAX_BLOCK_SIZE + 1, t.calls + 1, ?_, Nat.succ_pos _,
      le_max_of_le_right this, ?_⟩
    · push_cast
      rfl
    · rw [MAX_BLOCK_SIZE] at *
      omega

/-- An operation succeeds, and the array still agrees with the file. -/
def Succeeds (o : Options) (R : σ → Logical → Prop) (r : Except Abort (ℤ × Test σ)) : Prop :=
  ∃ t', r = .ok (0, t') ∧ Agrees o R t'

variable (hfollows : Follows impl o R) (h : Agrees o R t)
include hfollows h

theorem Agrees.performReadc : Succeeds o R (performReadc impl t) := by
  obtain ⟨s', hcall, hR⟩ := hfollows.calls _ _ .readc h.file trivial
  have hlen := h.length
  have hsize := h.size
  rw [Tester.performReadc, hcall, ok_bind]
  by_cases hlt : t.loc < t.fileSize
  · have hget : t.contents[t.loc]? = some t.contents[t.loc] := List.getElem?_eq_getElem (by omega)
    have hreply : (Logical.reply ⟨t.contents.take t.fileSize, t.loc⟩ .readc).ret =
        t.contents[t.loc].toNat := by
      rw [Logical.reply, List.getElem?_take, if_pos hlt, hget]
      rfl
    rw [Logical.after, hreply, if_neg (by omega)] at hR
    simp only [hreply, show ¬ (t.contents[t.loc].toNat : ℤ) < 0 by omega, if_false, hlt.ne, hget,
      ne_eq, not_true_eq_false]
    exact ⟨_, rfl, hR, hlen, hsize, h.zero, .inl hlt⟩
  · have hreply : (Logical.reply ⟨t.contents.take t.fileSize, t.loc⟩ .readc).ret = -1 := by
      rw [Logical.reply, List.getElem?_take, if_neg hlt]
      rfl
    rw [Logical.after, hreply, if_pos rfl] at hR
    simp only [hreply, show (-1 : ℤ) < 0 by decide, if_true, hlt, if_false]
    exact ⟨_, rfl, hR, hlen, hsize, h.zero, h.loc⟩

theorem Agrees.performWritec : Succeeds o R (performWritec impl o rand t) := by
  rw [Tester.performWritec]
  split_ifs with hlt
  · obtain ⟨b, hb⟩ : ∃ b, randBytes rand t.calls 1 = [b] := ⟨_, rfl⟩
    obtain ⟨hstore, hlen, hzero⟩ := h.store [b] hlt fun hnil => absurd hnil (List.cons_ne_nil _ _)
    obtain ⟨s', hcall, hR⟩ := hfollows.calls _ _ (.writec b.toNat) h.file hlt
    rw [Logical.after, Student.toChar_toNat, hstore] at hR
    simp only [hb, List.headD_cons]
    rw [hcall, ok_bind]
    simp only [Logical.reply, show ¬ (b.toNat : ℤ) = -1 by omega, if_false]
    have hsize := h.size
    exact ⟨_, rfl, hR, hlen, max_le hsize hlt, hzero, .inl (le_max_right _ _)⟩
  · exact ⟨_, rfl, h⟩

theorem Agrees.performRead (hread : o.readSize ≤ MAX_BLOCK_SIZE) :
    Succeeds o R (performRead impl o rand t) := by
  obtain ⟨sz, c, hbuf, hpos, hle, hint⟩ :=
    bufferSize_spec rand (hread.trans_lt (by decide : MAX_BLOCK_SIZE < 2 ^ 31)) t
  obtain ⟨s', hcall, hR⟩ := hfollows.calls _ _ (.read sz) h.file
    (show sz ≤ MAX_BLOCK_SIZE from hle.trans (max_le hread le_rfl))
  have hlen := h.length
  have hsize := h.size
  have hn : (slice (t.contents.take t.fileSize) t.loc sz).length = min sz (t.fileSize - t.loc) := by
    rw [length_slice, h.length_take]
  rw [Tester.performRead, hbuf]
  simp only [Int.toNat_natCast]
  rw [if_neg (by omega), hcall, ok_bind]
  have hret : toInt (slice (t.contents.take t.fileSize) t.loc sz).length =
      (slice (t.contents.take t.fileSize) t.loc sz).length := toInt_natCast (by omega)
  simp only [Logical.reply, hret, Int.toNat_natCast, List.take_length]
  rw [Logical.after, Logical.reply] at hR
  simp only [Int.toNat_natCast] at hR
  rw [if_neg (by omega), if_neg (by omega)]
  by_cases hlt : t.loc < t.fileSize
  · -- what is read is the same part of the array
    have hslice : slice (t.contents.take t.fileSize) t.loc sz =
        slice t.contents t.loc (slice (t.contents.take t.fileSize) t.loc sz).length := by
      rw [hn, ← slice_min_length sz, h.length_take]
      refine slice_congr fun i _ hi => ?_
      rw [List.getElem?_take, if_pos (by omega)]
    rw [if_neg (by omega), if_neg (by omega), if_neg (by omega),
      if_neg (fun hne => hne hslice)]
    exact ⟨_, rfl, hR, hlen, hsize, h.zero, .inl (by simp only; omega)⟩
  · rw [if_pos (by omega), if_neg hlt]
    rw [show (slice (t.contents.take t.fileSize) t.loc sz).length = 0 by omega, Nat.add_zero] at hR
    exact ⟨_, rfl, hR, hlen, hsize, h.zero, h.loc⟩

theorem Agrees.performWrite (hmax : o.maxSize < 2 ^ 63) (hwrite : o.writeSize < 2 ^ 31) :
    Succeeds o R (performWrite impl o rand t) := by
  obtain ⟨sz, c, hbuf, hpos, hle, hint⟩ := bufferSize_spec rand hwrite t
  have hloc := h.loc_le
  have hsize := h.size
  rw [Tester.performWrite, hbuf]
  simp only
  -- the bytes written fit behind the head
  obtain ⟨n, hn, hfit, hnle, hnil⟩ : ∃ n : ℕ,
      (if ((t.loc : ℤ) + sz) % 2 ^ 64 > o.maxSize then toInt (o.maxSize - t.loc) else sz) = n ∧
        t.loc + n ≤ o.maxSize ∧ n ≤ sz ∧ (n = 0 → t.loc ≤ t.fileSize) := by
    have := h.loc
    rw [Int.emod_eq_of_lt (by omega) (by omega)]
    by_cases hover : t.loc + sz > o.maxSize
    · rw [if_pos (by omega), toInt_of_lt (by omega) (by omega)]
      exact ⟨o.maxSize - t.loc, by omega, by omega, by omega, by omega⟩
    · rw [if_neg (by omega)]
      exact ⟨sz, rfl, by omega, le_rfl, by omega⟩
  simp only [hn, Int.toNat_natCast]
  rw [if_neg (by omega)]
  have hbs : (randBytes rand c n).length = n := length_randBytes c n
  generalize randBytes rand c n = bs at hbs
  obtain ⟨hstore, hlen, hzero⟩ := h.store bs (by omega)
    fun hbs' => hnil (by rw [← hbs, hbs', List.length_nil])
  obtain ⟨s', hcall, hR⟩ := hfollows.calls _ _ (.write bs) h.file
    (show bs.length ≤ max o.writeSize MAX_BLOCK_SIZE ∧ t.loc + bs.length ≤ o.maxSize by omega)
  rw [Logical.after, hstore] at hR
  rw [hcall, ok_bind]
  have hret : toInt (n : ℕ) = n := toInt_natCast (by omega)
  simp only [Logical.reply, Int.toNat_natCast, hbs, hret, gt_iff_lt, lt_irrefl, if_false] at hR hzero ⊢
  exact ⟨_, rfl, hR, hlen, max_le hsize hfit, hzero, .inl (le_max_right _ _)⟩

theorem Agrees.perform (ho : o.Accepted) (hwrite : o.writeSize < 2 ^ 31) (op : Operation) :
    Succeeds o R (perform impl o rand t op) := by
  cases op with
  | readc => exact h.performReadc hfollows
  | writec => exact h.performWritec hfollows
  | read => exact h.performRead hfollows ho.readSize_le
  | write => exact h.performWrite hfollows ho.maxSize_lt hwrite

theorem Agrees.testSeek (hmax : 0 < o.maxSize) (hrand : ∀ k, rand k < 2 ^ 31) :
    Succeeds o R (testSeek impl o rand t) := by
  rw [Tester.testSeek]
  split_ifs with hs
  · have hmod := Nat.mod_lt (rand t.calls) hmax
    have hle := Nat.mod_le (rand t.calls) o.maxSize
    have hlt := hrand t.calls
    obtain ⟨s', hcall, hR⟩ := hfollows.calls _ _ (.seek (rand t.calls % o.maxSize : ℕ)) h.file
      ⟨hs, Int.natCast_nonneg _, by omega, by omega⟩
    simp only
    rw [hcall, ok_bind]
    simp only [Logical.reply, show ¬ ((rand t.calls % o.maxSize : ℕ) : ℤ) < 0 by omega, if_false]
    exact ⟨_, rfl, hR, h.length, h.size, h.zero, .inr hmod⟩
  · exact ⟨_, rfl, h⟩

omit h in
theorem testOperations_succeeds (ho : o.Accepted) (hwrite : o.writeSize < 2 ^ 31)
    (hrand : ∀ k, rand k < 2 ^ 31) (n : ℕ) (h : Agrees o R t) :
    Succeeds o R (testOperations impl o rand n t) := by
  induction n generalizing t with
  | zero => exact ⟨t, rfl, h⟩
  | succ n ih =>
    obtain ⟨t₁, hseek, h₁⟩ := h.testSeek hfollows ho.maxSize_pos hrand
    have hlt := Nat.mod_lt (rand t₁.calls) (List.length_pos_of_ne_nil ho.operations_ne)
    obtain ⟨t₂, hop, h₂⟩ : Succeeds o R (perform impl o rand { t₁ with calls := t₁.calls + 1 }
        o.operations[rand t₁.calls % o.operations.length]) :=
      (h₁.calls (t₁.calls + 1)).perform hfollows ho hwrite _
    rw [testOperations, hseek, ok_bind]
    simp only [lt_irrefl, if_false, List.getElem?_eq_getElem hlt]
    rw [hop, ok_bind]
    simp only [lt_irrefl, if_false]
    exact ih h₂

omit h in
/-- **The test accepts an implementation that follows the file.** -/
theorem runTest_accepts (ho : o.Accepted) (hwrite : o.writeSize < 2 ^ 31)
    (hrand : ∀ k, rand k < 2 ^ 31) : runTest impl o rand = .ok 0 := by
  have hsize := ho.fileSize_le
  have hlen : (randBytes rand 0 o.fileSize).length = o.fileSize := length_randBytes 0 o.fileSize
  obtain ⟨s, hopen, hR⟩ := hfollows.opens _ hlen
  rw [runTest]
  simp only
  rw [hopen, ok_bind]
  generalize randBytes rand 0 o.fileSize = generated at hlen hR
  have htake : (generated ++ List.replicate (o.maxSize - o.fileSize) 0).take o.fileSize = generated := by
    rw [← hlen, List.take_left]
  have hstart : Agrees o R ⟨s, 0, generated ++ List.replicate (o.maxSize - o.fileSize) 0,
      o.fileSize, o.fileSize⟩ := by
    refine ⟨by rwa [htake], ?_, hsize, fun i hi hlt => ?_, .inl (Nat.zero_le _)⟩
    · rw [List.length_append, List.length_replicate, hlen]
      omega
    · simp only at hi
      rw [List.getElem?_append_right (by omega), List.getElem?_replicate, if_pos (by omega)]
  obtain ⟨t, htest, h⟩ := testOperations_succeeds hfollows ho hwrite hrand o.numOps hstart
  rw [htest, ok_bind]
  simp only [lt_irrefl, if_false]
  rw [hfollows.closes _ _ h.file, ok_bind]
  simp only [ne_eq, not_true_eq_false, if_false, if_true]
  rfl

end

/-! ## `naive.c` -/

/-- The descriptor of `naive.c` stands where the head of the file is. -/
structure NaiveAt (os : Os) (l : Logical) : Prop where
  data : os.data = l.contents
  offset : os.offset = l.head

theorem naive_follows (o : Options) : Follows (Naive.impl .succeeding) o NaiveAt := by
  refine ⟨fun disk _ => ⟨_, rfl, rfl, rfl⟩, ?_, fun os l h => ?_⟩
  · rintro ⟨data, offset, calls⟩ ⟨contents, head⟩ op ⟨rfl, rfl⟩ huse
    cases op with
    | seek pos =>
      obtain ⟨-, h0, -, hlt⟩ := huse
      have hseek : lseek .succeeding ⟨data, offset, calls⟩ pos = (pos, ⟨data, pos.toNat, calls + 1⟩) := by
        rw [lseek, if_neg]
        rintro (hneg | hfail)
        · omega
        · cases hfail
      refine ⟨⟨data, pos.toNat, calls + 1⟩, ?_, rfl, rfl⟩
      simp only [Naive.impl, Naive.call, Naive.io300Seek, hseek, toInt_of_lt h0 hlt]
      rfl
    | readc =>
      have hread : FileIO.read .succeeding ⟨data, offset, calls⟩ 1 =
        (some (slice data offset 1), ⟨data, offset + (slice data offset 1).length, calls + 1⟩) := rfl
      rcases hget : data[offset]? with _ | b
      · have hnil : slice data offset 1 = [] := slice_of_length_le 1 (List.getElem?_eq_none_iff.1 hget)
        rw [hnil] at hread
        refine ⟨⟨data, offset, calls + 1⟩, ?_, rfl, ?_⟩
        · simp only [Naive.impl, Naive.call, Naive.io300Readc, hread, Logical.reply, hget]
          rfl
        · simp only [Logical.reply, Logical.after, hget, Option.elim_none, if_true, Nat.add_zero]
      · have hone : slice data offset 1 = [b] := by
          obtain ⟨hlt, rfl⟩ := List.getElem?_eq_some_iff.1 hget
          rw [slice, List.drop_eq_getElem_cons hlt, List.take_succ_cons, List.take_zero]
        rw [hone] at hread
        refine ⟨⟨data, offset + 1, calls + 1⟩, ?_, rfl, ?_⟩
        · simp only [Naive.impl, Naive.call, Naive.io300Readc, hread, Logical.reply, hget]
          rfl
        · simp only [Logical.reply, Logical.after, hget, Option.elim_some]
          rw [if_neg (by omega)]
    | read sz => exact ⟨_, rfl, rfl, rfl⟩
    | writec ch => exact ⟨_, rfl, rfl, rfl⟩
    | write buff => exact ⟨_, rfl, rfl, rfl⟩
  · exact congrArg (fun data => Except.ok (0, data)) h.data

/-- **`naive.c` passes the test**, whatever the options and the random numbers. -/
theorem naive_passes {cl : CommandLine} {o : Options} (hopts : options cl = .ok o)
    (hwrite : o.writeSize < 2 ^ 31) (rand : ℕ → ℕ) (hrand : ∀ k, rand k < 2 ^ 31) :
    main (Naive.impl .succeeding) rand cl = .ok 0 := by
  rw [main, hopts]
  exact runTest_accepts (naive_follows o) (options_accepted hopts) hwrite hrand

theorem naive_passes_all :
    main (Naive.impl .succeeding) (fun k => k * k % 97) ⟨[('s', "8"), ('m', "16")], ["all"]⟩ = .ok 0 :=
  naive_passes (o := ⟨[.readc, .writec, .read, .write], true, 0, 0, 8, 16, 1000⟩) (by decide +kernel)
    (by decide) _ fun k => lt_trans (Nat.mod_lt _ (by decide)) (by decide)

/-! ## `student.c` -/

/-- The handle of `student.c` stands for the file, and a head beyond the cached size is at the end
    of the file; if the test seeks, the file has the greatest size from the start. -/
structure StudentAt (C : ℕ) (o : Options) (f : Student.Io300File Os) (l : Logical) : Prop where
  loose : Student.Loose C f
  sized : Student.Sized f
  contents : f.contents = l.contents
  head : f.head = l.head
  visible : (l.contents.length : ℤ) ≤ max f.fileSize f.head
  full : o.seeking = true → l.contents.length = o.maxSize ∧ (o.maxSize : ℤ) ≤ f.fileSize

section
variable {C fuel : ℕ} {o : Options} {garbage : List UInt8} {f : Student.Io300File Os} {l : Logical}

/-- The view answers as the file does, and no byte of the file is hidden from it. -/
theorem StudentAt.view_call (h : StudentAt C o f l) {op : Op} (huse : o.Uses l op) : ∃ F,
    f.view.call op =
      (l.reply op, ⟨(l.after op (l.reply op)).contents, (l.after op (l.reply op)).head, F⟩) ∧
    f.fileSize ≤ F ∧
    ((l.after op (l.reply op)).contents.length : ℤ) ≤ max F (l.after op (l.reply op)).head := by
  have hvis := h.visible
  rw [h.head] at hvis
  have hview : f.view = ⟨l.contents, l.head, f.fileSize⟩ := by
    rw [Student.Io300File.view, h.contents, h.head]
  rw [hview]
  cases op with
  | seek pos =>
    obtain ⟨hs, h0, -, hlt⟩ := huse
    obtain ⟨hfull, hF⟩ := h.full hs
    refine ⟨max f.fileSize pos, ?_, le_max_left _ _, ?_⟩
    · rw [Student.View.call, toInt_of_lt h0 hlt]
      rfl
    · simp only [Logical.after]
      omega
  | readc =>
    refine ⟨f.fileSize, ?_, le_rfl, ?_⟩
    · rw [Student.View.call]
      simp only
      rcases hget : l.contents[l.head]? with _ | b
      · simp only [ite_self, Logical.reply, Logical.after, hget, Option.elim_none, if_true,
          Nat.add_zero]
      · have hlt := (List.getElem?_eq_some_iff.1 hget).1
        rw [if_neg (by omega)]
        simp only [Logical.reply, Logical.after, hget, Option.elim_some]
        rw [if_neg (by omega)]
    · simp only [Logical.after]
      omega
  | read sz =>
    refine ⟨f.fileSize, ?_, le_rfl, ?_⟩
    · rw [Student.View.call]
      simp only
      split_ifs with hpast
      · simp only [Logical.reply, Logical.after,
          slice_of_length_le sz (show l.contents.length ≤ l.head by omega), List.length_nil,
          Int.toNat_natCast, Nat.add_zero]
        rfl
      · simp only [Logical.reply, Logical.after, Int.toNat_natCast]
    · simp only [Logical.after]
      omega
  | writec ch =>
    refine ⟨f.fileSize, rfl, le_rfl, ?_⟩
    simp only [Logical.after, length_store (List.cons_ne_nil _ _), List.length_singleton]
    omega
  | write buff =>
    have hle : (store 0 l.contents l.head buff).length ≤ max l.contents.length (l.head + buff.length) :=
      length_store_le
    refine ⟨f.fileSize, rfl, le_rfl, ?_⟩
    simp only [Logical.after, Logical.reply, Int.toNat_natCast]
    omega

/-- The calls of a test leave the length of the file where it is, once it is the greatest one. -/
theorem length_after (hl : l.contents.length = o.maxSize) {op : Op} (huse : o.Uses l op) (r : Reply) :
    (l.after op r).contents.length = o.maxSize := by
  have hstore : ∀ bs, l.head + bs.length ≤ o.maxSize →
      (store (0 : UInt8) l.contents l.head bs).length = o.maxSize := by
    intro bs hfit
    have h1 : (store 0 l.contents l.head bs).length ≤ max l.contents.length (l.head + bs.length) :=
      length_store_le
    have h2 : l.contents.length ≤ (store 0 l.contents l.head bs).length := le_length_store
    omega
  cases op with
  | writec ch => exact hstore [toChar ch] huse
  | write buff => exact hstore buff huse.2
  | seek | readc | read => exact hl

theorem student_follows (hC : 0 < C) (hg : garbage.length = C)
    (hfuel : max o.writeSize MAX_BLOCK_SIZE < fuel)
    (hseek : o.seeking = true → o.fileSize = o.maxSize) :
    Follows (Student.impl C .succeeding fuel garbage) o (StudentAt C o) := by
  refine ⟨fun disk hdisk => ?_, fun f l op h huse => ?_, fun f l h => ?_⟩
  · obtain ⟨f, hopen, hok, hcont, hhead, hF, hd, hdata⟩ := Student.io300Open_spec disk hg
    have hsized : Student.Sized f :=
      ⟨by rw [hF, hdata], fun _ => ⟨hok.head_le_end, hok.clean_valid hd⟩⟩
    refine ⟨f, hopen, hsized.loose hok, hsized, hcont, hhead, ?_, fun hs => ?_⟩
    · rw [hF]
      exact le_max_left _ _
    · have := hseek hs
      simp only
      omega
  · obtain ⟨F, hview, hF, hvis⟩ := h.view_call huse
    have hin : f.view.InFile op := by
      cases op with
      | seek pos =>
        obtain ⟨hs, h0, hlt, -⟩ := huse
        have hlen : f.view.contents.length = o.maxSize :=
          (congrArg List.length h.contents).trans (h.full hs).1
        exact ⟨h0, by omega⟩
      | _ => trivial
    have hop : op.size < fuel := by
      cases op with
      | read sz => exact lt_of_le_of_lt (le_max_of_le_right huse) hfuel
      | write buff => exact lt_of_le_of_lt huse.1 hfuel
      | _ => exact lt_of_le_of_lt (Nat.zero_le _) hfuel
    obtain ⟨g, hcall, hg⟩ := h.loose.call hC hin (h.sized.fresh op) hop
    rw [hview] at hcall hg
    obtain ⟨hcont, hhead, hsize⟩ := Student.View.mk.inj hg.view
    refine ⟨g, hcall, hg.loose, hg.sized h.sized, hcont, hhead, ?_, fun hs => ?_⟩
    · rwa [hsize, hhead]
    · obtain ⟨hfull, hle⟩ := h.full hs
      exact ⟨length_after hfull huse _, by rw [hsize]; exact hle.trans hF⟩
  · obtain ⟨g, hclose, hdata⟩ := Student.io300Close_spec h.loose.toWin h.loose.head_le_end
    simp only [Student.impl, hclose]
    rw [← h.contents, ← hdata]
    rfl

/-- **`student.c` passes the test** that does not seek, or whose file has its greatest size from the
    start. -/
theorem student_passes {cl : CommandLine} (hopts : options cl = .ok o) (hwrite : o.writeSize < 2 ^ 31)
    (hseek : o.seeking = true → o.fileSize = o.maxSize) (rand : ℕ → ℕ) (hrand : ∀ k, rand k < 2 ^ 31)
    (hC : 0 < C) (hg : garbage.length = C) (hfuel : max o.writeSize MAX_BLOCK_SIZE < fuel) :
    main (Student.impl C .succeeding fuel garbage) rand cl = .ok 0 := by
  rw [main, hopts]
  exact runTest_accepts (student_follows hC hg hfuel hseek) (options_accepted hopts) hwrite hrand

theorem student_passes_full : main (Student.impl 4 .succeeding 32 [0, 0, 0, 0]) (fun k => k * k % 97)
    ⟨[('s', "90"), ('m', "90")], ["read=7", "seek", "write=31"]⟩ = .ok 0 :=
  student_passes (o := ⟨[.read, .write], true, 7, 31, 90, 90, 1000⟩) (by decide +kernel) (by decide)
    (fun _ => rfl) _
    (fun k => lt_trans (Nat.mod_lt _ (by decide)) (by decide)) (by decide) rfl (by decide)

end

end Tester

end CProj.FileIO
