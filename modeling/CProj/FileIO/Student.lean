/-
  The cached implementation of `io300.h` (`fileio/impl/student.c`), over a model of the one
  regular file it has open.

  * `Os` is the file on disk with the descriptor's offset; `Sys` decides how each system call
    ends: it transfers everything, only a prefix, or fails with `-1`.
  * The block transfers are over any `Device` that answers `pread` and `pwrite`; `Sys.device` is
    the file on disk.
  * `Io300File` is `struct io300_file`; offsets (`off_t`) are natural numbers, since none of them
    is ever negative, except `fileSize`, which `fstat` may leave at `-1`.  The `stats` counters
    and the `description` only reach `printf` and are left out.
  * The functions keep the order of the tests, system calls and assignments of the source.  An
    assertion that fails, an access outside the cache buffer, and a loop that is still running
    after `fuel` iterations are the three kinds of `Abort`.
-/
import CProj.Lib.Store

namespace CProj.FileIO

/-! ## The file on disk and the system calls -/

/-- The system calls of the implementations. -/
inductive SysCall where
  | lseek | read | write | pread | pwrite | fstat | close
  deriving DecidableEq, Repr

/-- How a system call ends: with everything it was asked for, with at most `n` bytes, or with
    `-1`. -/
inductive Outcome where
  | full
  | short (n : ℕ)
  | fail
  deriving DecidableEq, Repr

/-- The outcome of each system call: the `n`-th one of the session, if it is a `c`, ends with
    `outcome c n`. -/
structure Sys where
  outcome : SysCall → ℕ → Outcome

/-- Every system call succeeds, with a full transfer. -/
def Sys.succeeding : Sys := ⟨fun _ _ => .full⟩

/-- The open file: its bytes on disk, the descriptor's offset, and the number of system calls
    made so far. -/
structure Os where
  data : List UInt8
  offset : ℕ
  calls : ℕ
  deriving DecidableEq, Repr

/-- The part of a transfer of `bs` that takes place. -/
def Outcome.cut : Outcome → List UInt8 → Option (List UInt8)
  | .full, bs => some bs
  | .short n, bs => some (bs.take n)
  | .fail, _ => none

section
variable (sys : Sys)

/-- `pread(fd, _, n, off)`: the bytes read, or `none` for `-1`. -/
def pread (os : Os) (n off : ℕ) : Option (List UInt8) × Os :=
  ((sys.outcome .pread os.calls).cut (slice os.data off n), { os with calls := os.calls + 1 })

/-- `read(fd, _, n)`, at the descriptor's offset, which it advances. -/
def read (os : Os) (n : ℕ) : Option (List UInt8) × Os :=
  match (sys.outcome .read os.calls).cut (slice os.data os.offset n) with
  | some bs => (some bs, { os with offset := os.offset + bs.length, calls := os.calls + 1 })
  | none => (none, { os with calls := os.calls + 1 })

/-- `write(fd, bs, |bs|)`, at the descriptor's offset, which it advances. -/
def write (os : Os) (bs : List UInt8) : Option ℕ × Os :=
  match (sys.outcome .write os.calls).cut bs with
  | some w => (some w.length, { os with
      data := store 0 os.data os.offset w, offset := os.offset + w.length, calls := os.calls + 1 })
  | none => (none, { os with calls := os.calls + 1 })

/-- `pwrite(fd, bs, |bs|, off)`: the number of bytes written, or `none` for `-1`. -/
def pwrite (os : Os) (bs : List UInt8) (off : ℕ) : Option ℕ × Os :=
  match (sys.outcome .pwrite os.calls).cut bs with
  | some w => (some w.length, { os with data := store 0 os.data off w, calls := os.calls + 1 })
  | none => (none, { os with calls := os.calls + 1 })

/-- `lseek(fd, pos, SEEK_SET)`: it fails for a negative `pos`. -/
def lseek (os : Os) (pos : ℤ) : ℤ × Os :=
  if pos < 0 ∨ sys.outcome .lseek os.calls = .fail then (-1, { os with calls := os.calls + 1 })
  else (pos, { os with offset := pos.toNat, calls := os.calls + 1 })

/-- `fstat(fd, _)`: the size of the (regular) file, or `none` for `-1`. -/
def fstat (os : Os) : Option ℕ × Os :=
  (if sys.outcome .fstat os.calls = .fail then none else some os.data.length,
    { os with calls := os.calls + 1 })

/-- `close(fd)`. -/
def close (os : Os) : ℤ × Os :=
  (if sys.outcome .close os.calls = .fail then -1 else 0, { os with calls := os.calls + 1 })

end

/-- `pread` and `pwrite`, the system calls of the block transfers, as functions on a state `σ`:
    `pread` gives the bytes read, `pwrite` the number of bytes written, and both `none` for `-1`. -/
structure Device (σ : Type) where
  pread : σ → ℕ → ℕ → Option (List UInt8) × σ
  pwrite : σ → List UInt8 → ℕ → Option ℕ × σ

/-- The file on disk, with its outcomes. -/
def Sys.device (sys : Sys) : Device Os where
  pread := pread sys
  pwrite := pwrite sys

@[simp] theorem Sys.device_pread (sys : Sys) : sys.device.pread = pread sys := rfl

@[simp] theorem Sys.device_pwrite (sys : Sys) : sys.device.pwrite = pwrite sys := rfl

abbrev Device.succeeding : Device Os := Sys.succeeding.device

/-- The conversion of an `off_t` to the `int` that `io300_seek` returns. -/
def toInt (x : ℤ) : ℤ := x.bmod (2 ^ 32)

/-- The conversion of an `int` to the `char` that is stored. -/
def toChar (ch : ℤ) : UInt8 := UInt8.ofNat (ch % 256).toNat

/-- The ways in which a call does not return. -/
inductive Abort where
  /-- an assertion of `check_invariants` fails -/
  | assertion
  /-- an access outside the cache buffer -/
  | outOfBounds
  /-- a loop has not ended yet -/
  | running
  deriving DecidableEq, Repr

namespace Student

/-- `struct io300_file`, together with the file it has open. -/
structure Io300File (σ : Type) where
  os : σ
  cache : List UInt8
  dirty : Bool
  head : ℕ
  cacheStart : ℕ
  cacheEnd : ℕ
  fileSize : ℤ
  direction : ℕ
  deriving DecidableEq, Repr

/-! ### Block transfers -/

section
variable {σ : Type} (CACHE_SIZE : ℕ) (dev : Device σ)

/-- `check_invariants(f)`. -/
def checkInvariants (f : Io300File σ) : Except Abort Unit :=
  if (f.cacheStart ≤ f.head ∧ f.head ≤ f.cacheEnd) ∧ f.cacheEnd - f.cacheStart ≤ CACHE_SIZE then
    .ok ()
  else .error .assertion

/-- Copy `bs` into the cache buffer at index `i`. -/
def putCache (f : Io300File σ) (i : ℕ) (bs : List UInt8) : Except Abort (Io300File σ) :=
  if i + bs.length ≤ CACHE_SIZE then .ok { f with cache := store 0 f.cache i bs }
  else .error .outOfBounds

/-- The `n` bytes of the cache buffer at index `i`. -/
def getCache (f : Io300File σ) (i n : ℕ) : Except Abort (List UInt8) :=
  if i + n ≤ CACHE_SIZE then .ok (slice f.cache i n) else .error .outOfBounds

def io300Flush (f : Io300File σ) : Except Abort (ℤ × Io300File σ) := do
  checkInvariants CACHE_SIZE f
  let bs ← getCache CACHE_SIZE f 0 (f.head - f.cacheStart)
  let (nWritten, os) := dev.pwrite f.os bs f.cacheStart
  let f := { f with os := os }
  match nWritten with
  | some _ =>
    return (0, { f with cacheStart := f.head, cacheEnd := f.cacheEnd + CACHE_SIZE, dirty := false })
  | none => return (-1, f)

/-- The write-back in front of a fetch: a dirty window is flushed, of a clean one the head moves
    to the end. -/
def fetchFlush (f : Io300File σ) : Except Abort (Io300File σ) :=
  if f.dirty then do
    let (_, f) ← io300Flush CACHE_SIZE dev f
    return f
  else .ok { f with cacheStart := f.cacheEnd, head := f.cacheEnd }

/-- The loading of a window `[fetchStart, fetchEnd)` from the file. -/
def fetchLoad (f : Io300File σ) (fetchStart fetchEnd : ℕ) : Except Abort (ℤ × Io300File σ) := do
  let (nRead, os) := dev.pread f.os (fetchEnd - fetchStart) fetchStart
  let f := { f with os := os }
  match nRead with
  | some bs =>
    let f ← putCache CACHE_SIZE f 0 bs
    return (0, { f with cacheStart := fetchStart, cacheEnd := fetchStart + bs.length })
  | none => return (-1, f)

def io300Fetch (f : Io300File σ) : Except Abort (ℤ × Io300File σ) := do
  checkInvariants CACHE_SIZE f
  let f ← fetchFlush CACHE_SIZE dev f
  let direction :=
    if f.head < f.cacheStart then 0 else if f.head > f.cacheEnd then 1 else f.direction
  let f := { f with direction := direction }
  if f.direction = 1 then fetchLoad CACHE_SIZE dev f f.head (f.head + CACHE_SIZE)
  -- backwards, the window ends at the head; a start below 0 is set to 0
  else fetchLoad CACHE_SIZE dev f (f.head - CACHE_SIZE) f.head

/-- The copying step of `io300_read` with `buff` read so far: as much as the window and the
    request allow. -/
def readCopy (f : Io300File σ) (sz : ℕ) (buff : List UInt8) :
    Except Abort (Io300File σ × List UInt8) := do
  -- a window that ends before the head has a negative length, which a `size_t` takes for more
  -- than any request
  let nToCopy := if f.cacheEnd < f.head then sz - buff.length
    else min (f.cacheEnd - f.head) (sz - buff.length)
  let bs ← getCache CACHE_SIZE f (f.head - f.cacheStart) nToCopy
  return ({ f with head := f.head + nToCopy }, buff ++ bs)

/-- The loop of `io300_read`; `pos` is the length of `buff`. -/
def io300ReadLoop : ℕ → Io300File σ → ℕ → List UInt8 → Except Abort (Io300File σ × List UInt8)
  | 0, _, _, _ => .error .running
  | fuel + 1, f, sz, buff =>
    if buff.length < sz then do
      if f.head = f.cacheEnd then
        let (_, f) ← io300Fetch CACHE_SIZE dev f
        -- if cache is still empty after fetching, break loop
        if f.head = f.cacheEnd then return (f, buff)
        let (f, buff) ← readCopy CACHE_SIZE f sz buff
        io300ReadLoop fuel f sz buff
      else
        let (f, buff) ← readCopy CACHE_SIZE f sz buff
        io300ReadLoop fuel f sz buff
    else .ok (f, buff)

/-- `io300_read`: the value returned and the bytes placed into the caller's buffer. -/
def io300Read (fuel : ℕ) (f : Io300File σ) (sz : ℕ) :
    Except Abort ((ℤ × List UInt8) × Io300File σ) := do
  checkInvariants CACHE_SIZE f
  if (f.head : ℤ) > f.fileSize then return ((0, []), f)
  let (f, buff) ← io300ReadLoop CACHE_SIZE dev fuel f sz []
  return ((buff.length, buff), f)

/-- What an iteration of `io300_write` does when the window is full: refill it below the cached
    size, write it out at or above; `false` if the write fails. -/
def writeRefill (f : Io300File σ) : Except Abort (Bool × Io300File σ) := do
  if f.head = f.cacheStart + CACHE_SIZE then
    if (f.head : ℤ) < f.fileSize then
      let (_, f) ← io300Fetch CACHE_SIZE dev f
      return (true, f)
    else
      let f := if f.cacheEnd < f.head then { f with cacheEnd := f.cacheStart + CACHE_SIZE } else f
      let (r, f) ← io300Flush CACHE_SIZE dev f
      return (r ≠ -1, f)
  else return (true, f)

/-- The copying step of `io300_write`: the rest of `buff` or as much as the window takes.  The
    second component is what remains to be written. -/
def writeCopy (f : Io300File σ) (buff : List UInt8) : Except Abort (Io300File σ × List UInt8) := do
  let available := CACHE_SIZE - (f.head - f.cacheStart)
  let nToWrite := if buff.length < available then buff.length else available
  let f ← putCache CACHE_SIZE f (f.head - f.cacheStart) (buff.take nToWrite)
  return ({ f with head := f.head + nToWrite, dirty := true }, buff.drop nToWrite)

/-- The loop of `io300_write` over the bytes still to be written; the flag is `false` after a
    failed flush. -/
def io300WriteLoop : ℕ → Io300File σ → List UInt8 → Except Abort (Bool × Io300File σ)
  | 0, _, _ => .error .running
  | fuel + 1, f, buff =>
    if buff = [] then .ok (true, f)
    else do
      let (ok, f) ← writeRefill CACHE_SIZE dev f
      if ok then
        let (f, buff) ← writeCopy CACHE_SIZE f buff
        io300WriteLoop fuel f buff
      else return (false, f)

def io300Write (fuel : ℕ) (f : Io300File σ) (buff : List UInt8) :
    Except Abort (ℤ × Io300File σ) := do
  checkInvariants CACHE_SIZE f
  let (ok, f) ← io300WriteLoop CACHE_SIZE dev fuel f buff
  if ok then
    let f := if f.cacheEnd < f.head then { f with cacheEnd := f.cacheStart + CACHE_SIZE } else f
    return (buff.length, f)
  else return (-1, f)

end

/-! ### The file -/

section
variable (CACHE_SIZE : ℕ) (sys : Sys)

def io300Filesize (f : Io300File Os) : Except Abort (ℤ × Io300File Os) := do
  checkInvariants CACHE_SIZE f
  let (r, os) := fstat sys f.os
  let f := { f with os := os }
  match r with
  | some n => return (n, f)
  | none => return (-1, f)

/-- `io300_open` on a file with the contents `disk`, where `malloc` returns a buffer holding
    `garbage`. -/
def io300Open (disk garbage : List UInt8) : Except Abort (Io300File Os) := do
  let f : Io300File Os := ⟨⟨disk, 0, 0⟩, garbage, false, 0, 0, 0, 0, 1⟩
  let (n, f) ← io300Filesize CACHE_SIZE sys f
  let f := { f with fileSize := n }
  let (_, f) ← io300Fetch CACHE_SIZE sys.device f
  checkInvariants CACHE_SIZE f
  return f

/-- The write-back of `io300_seek` and `io300_close`; its result is ignored. -/
def flushIfDirty (f : Io300File Os) : Except Abort (Io300File Os) :=
  if f.dirty then do
    let (_, f) ← io300Flush CACHE_SIZE sys.device f
    return f
  else .ok f

/-- The end of `io300_seek`: the window at the new head. -/
def seekLoad (f : Io300File Os) : Except Abort (ℤ × Io300File Os) :=
  if (f.head : ℤ) > f.fileSize then
    -- seek beyond eof
    .ok (toInt f.head, { f with fileSize := f.head })
  else do
    let toRead := if (f.head : ℤ) + CACHE_SIZE > f.fileSize then (f.fileSize - f.head).toNat
      else CACHE_SIZE
    let (nRead, os) := read sys f.os toRead
    let f := { f with os := os }
    match nRead with
    | some bs =>
      let f ← putCache CACHE_SIZE f 0 bs
      return (toInt f.head, { f with cacheEnd := f.head + bs.length })
    | none => return (toInt f.head, { f with cacheEnd := f.head })

def io300Seek (f : Io300File Os) (pos : ℤ) : Except Abort (ℤ × Io300File Os) := do
  checkInvariants CACHE_SIZE f
  let f ← flushIfDirty CACHE_SIZE sys f
  let (newPos, os) := lseek sys f.os pos
  let f := { f with os := os }
  if newPos = -1 then return (-1, f)
  else
    let f := { f with head := pos.toNat, cacheStart := pos.toNat, cacheEnd := pos.toNat }
    seekLoad CACHE_SIZE sys f

def io300Close (f : Io300File Os) : Except Abort (ℤ × Io300File Os) := do
  checkInvariants CACHE_SIZE f
  let f ← flushIfDirty CACHE_SIZE sys f
  let (ret, os) := close sys f.os
  return (ret, { f with os := os })

/-- The end of `io300_readc`: the byte under the head. -/
def readcByte (f : Io300File Os) : Except Abort (ℤ × Io300File Os) := do
  let bs ← getCache CACHE_SIZE f (f.head - f.cacheStart) 1
  return ((bs.headD 0).toNat, { f with head := f.head + 1 })

def io300Readc (f : Io300File Os) : Except Abort (ℤ × Io300File Os) := do
  checkInvariants CACHE_SIZE f
  if (f.head : ℤ) > f.fileSize then return (-1, f)
  if f.head = f.cacheEnd then
    let (r, f) ← io300Fetch CACHE_SIZE sys.device f
    if r = -1 then return (-1, f)
    if f.head = f.cacheEnd then return (-1, f)
    readcByte CACHE_SIZE f
  else readcByte CACHE_SIZE f

/-- The end of `io300_writec`: store the byte under the head. -/
def writecByte (f : Io300File Os) (ch : ℤ) : Except Abort (ℤ × Io300File Os) := do
  let f ← putCache CACHE_SIZE f (f.head - f.cacheStart) [toChar ch]
  return (ch, { f with head := f.head + 1, dirty := true })

def io300Writec (f : Io300File Os) (ch : ℤ) : Except Abort (ℤ × Io300File Os) := do
  checkInvariants CACHE_SIZE f
  if f.head = f.cacheEnd then
    let (size, f) ← io300Filesize CACHE_SIZE sys f
    if (f.head : ℤ) < size then
      let (_, f) ← io300Fetch CACHE_SIZE sys.device f
      writecByte CACHE_SIZE f ch
    else
      let (r, f) ← io300Flush CACHE_SIZE sys.device f
      if r = -1 then return (-1, f)
      writecByte CACHE_SIZE f ch
  else writecByte CACHE_SIZE f ch

end

end Student

end CProj.FileIO
