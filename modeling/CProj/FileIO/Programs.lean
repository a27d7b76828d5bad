/-
  Programs that use `io300.h` (`fileio/test_programs`): `rot13.c`, `reverse_byte_cat.c`,
  `reverse_block_cat.c`, `stride_cat.c`, `byte_cat.c`, `diabolical_byte_cat.c`, `block_cat.c` and
  `random_block_cat.c`, compiled with `student.c`.

  A program is given the contents of its files, which are different files, and the `malloc`ed
  buffers of their caches; it ends with its exit status and the contents of the file it has
  written.  Calls of `malloc` and `open` succeed.  `fuel` bounds the loops of `io300_read` and
  `io300_write`, and the `while` loops.
-/
import CProj.FileIO.Student

namespace CProj.FileIO.Student

section
variable (CACHE_SIZE : ℕ) (sys : Sys)

/-! ## `rot13.c` -/

def rot13 (ch : UInt8) : UInt8 :=
  if 65 ≤ ch ∧ ch ≤ 90 then 65 + (ch - 65 + 13) % 26
  else if 97 ≤ ch ∧ ch ≤ 122 then 97 + (ch - 97 + 13) % 26
  else ch

/-- The loop over the positions `is`. -/
def rot13Loop : List ℕ → Io300File Os → Except Abort (ℤ × Io300File Os)
  | [], f => .ok (0, f)
  | i :: is, f => do
    let (r, f) ← io300Seek CACHE_SIZE sys f i
    if r = -1 then return (1, f)
    let (ch, f) ← io300Readc CACHE_SIZE sys f
    if ch = -1 then return (1, f)
    let (r, f) ← io300Seek CACHE_SIZE sys f i
    if r = -1 then return (1, f)
    let (r, f) ← io300Writec CACHE_SIZE sys f (rot13 (toChar ch)).toNat
    if r = -1 then return (1, f)
    rot13Loop is f

/-- `rot13 <in-file>`. -/
def rot13Main (disk cache : List UInt8) : Except Abort (ℤ × List UInt8) := do
  let f ← io300Open CACHE_SIZE sys disk cache
  let (filesize, f) ← io300Filesize CACHE_SIZE sys f
  if filesize = -1 then
    let (_, f) ← io300Close CACHE_SIZE sys f
    return (1, f.os.data)
  let (status, f) ← rot13Loop CACHE_SIZE sys (List.range filesize.toNat) f
  let (_, f) ← io300Close CACHE_SIZE sys f
  return (status, f.os.data)

/-! ## `reverse_byte_cat.c` -/

/-- The loop over the positions `is`. -/
def reverseByteLoop : List ℕ → Io300File Os → Io300File Os → Except Abort (ℤ × Io300File Os × Io300File Os)
  | [], inf, outf => .ok (0, inf, outf)
  | i :: is, inf, outf => do
    let (r, inf) ← io300Seek CACHE_SIZE sys inf i
    if r = -1 then return (1, inf, outf)
    let (ch, inf) ← io300Readc CACHE_SIZE sys inf
    if ch = -1 then return (1, inf, outf)
    let (r, outf) ← io300Writec CACHE_SIZE sys outf ch
    if r = -1 then return (1, inf, outf)
    reverseByteLoop is inf outf

/-- `reverse_byte_cat <in-file> <out-file>`. -/
def reverseByteCat (inDisk inCache outDisk outCache : List UInt8) : Except Abort (ℤ × List UInt8) := do
  let inf ← io300Open CACHE_SIZE sys inDisk inCache
  let outf ← io300Open CACHE_SIZE sys outDisk outCache
  let (filesize, inf) ← io300Filesize CACHE_SIZE sys inf
  if filesize ≤ 0 then return (1, outf.os.data)
  let (status, inf, outf) ← reverseByteLoop CACHE_SIZE sys (List.range filesize.toNat).reverse inf outf
  let _ ← io300Close CACHE_SIZE sys inf
  let (_, outf) ← io300Close CACHE_SIZE sys outf
  return (status, outf.os.data)

variable (fuel : ℕ)

/-! ## `reverse_block_cat.c` -/

/-- The loop from the position `i` down. -/
def reverseBlockLoop (bufferSize : ℕ) :
    ℕ → ℤ → Io300File Os → Io300File Os → Except Abort (ℤ × Io300File Os × Io300File Os)
  | 0, _, _, _ => .error .running
  | n + 1, i, inf, outf =>
    if i ≥ 0 then do
      let (r, inf) ← io300Seek CACHE_SIZE sys inf i
      if r = -1 then return (1, inf, outf)
      let ((k, inBuffer), inf) ← io300Read CACHE_SIZE sys.device fuel inf bufferSize
      if k = -1 then return (0, inf, outf)
      -- `out_buffer`, the `k` bytes of `in_buffer` backwards
      let (r, outf) ← io300Write CACHE_SIZE sys.device fuel outf inBuffer.reverse
      if r = -1 then return (1, inf, outf)
      reverseBlockLoop bufferSize n (i - bufferSize) inf outf
    else .ok (0, inf, outf)

/-- `reverse_block_cat <buffer-size> <in-file> <out-file>`. -/
def reverseBlockCat (bufferSize : ℕ) (inDisk inCache outDisk outCache : List UInt8) :
    Except Abort (ℤ × List UInt8) := do
  if bufferSize = 0 then return (1, outDisk)
  let inf ← io300Open CACHE_SIZE sys inDisk inCache
  let outf ← io300Open CACHE_SIZE sys outDisk outCache
  let (filesize, inf) ← io300Filesize CACHE_SIZE sys inf
  if filesize ≤ 0 then
    let _ ← io300Close CACHE_SIZE sys inf
    let (_, outf) ← io300Close CACHE_SIZE sys outf
    return (1, outf.os.data)
  let (status, inf, outf) ← reverseBlockLoop CACHE_SIZE sys fuel bufferSize fuel
    (filesize - filesize % bufferSize) inf outf
  let _ ← io300Close CACHE_SIZE sys inf
  let (_, outf) ← io300Close CACHE_SIZE sys outf
  return (status, outf.os.data)

/-! ## `stride_cat.c` -/

/-- The variables of the loop. -/
structure Stride where
  inf : Io300File Os
  outf : Io300File Os
  pos : ℕ
  written : ℕ
  blockSize : ℕ
  /-- (ghost) the sizes that `io300_read` has been asked for -/
  reads : List ℕ

/-- The next position and block size: to the next row, or to the next column. -/
def nextStride (stride inputSize pos blockSize : ℕ) : ℕ × ℕ :=
  let pos := (pos + stride) % 2 ^ 64
  if pos ≥ inputSize then
    let pos := (pos % stride + blockSize) % 2 ^ 64
    if (pos + blockSize) % 2 ^ 64 > stride then (pos, (stride + 2 ^ 64 - pos) % 2 ^ 64)
    else (pos, blockSize)
  else (pos, blockSize)

/-- The `while` loop. -/
def strideLoop (stride inputSize : ℕ) : ℕ → Stride → Except Abort (ℤ × Stride)
  | 0, _ => .error .running
  | n + 1, s =>
    if s.written < inputSize then do
      -- copy a block
      let ((amount, buf), inf) ← io300Read CACHE_SIZE sys.device fuel s.inf s.blockSize
      let s := { s with inf := inf, reads := s.reads ++ [s.blockSize] }
      if amount ≤ 0 then return (0, s)
      let (_, outf) ← io300Write CACHE_SIZE sys.device fuel s.outf buf
      -- move to the next stride
      let (pos, blockSize) := nextStride stride inputSize s.pos s.blockSize
      let s := { s with
        outf := outf, written := s.written + amount.toNat, pos := pos, blockSize := blockSize }
      let (r, inf) ← io300Seek CACHE_SIZE sys s.inf s.pos
      let s := { s with inf := inf }
      if r = -1 then return (1, s)
      strideLoop stride inputSize n s
    else .ok (0, s)

/-- `stride_cat <BLOCKSIZE> <STRIDE> <INFILE> <OUTFILE>`, with the sizes that `io300_read` has been
    asked for. -/
def strideCat (blockSize stride : ℕ) (inDisk inCache outDisk outCache : List UInt8) :
    Except Abort (ℤ × List UInt8 × List ℕ) := do
  let inf ← io300Open CACHE_SIZE sys inDisk inCache
  let (inputSize, inf) ← io300Filesize CACHE_SIZE sys inf
  if inputSize < 0 then return (1, outDisk, [])
  let (r, inf) ← io300Seek CACHE_SIZE sys inf 0
  if r < 0 then return (1, outDisk, [])
  let outf ← io300Open CACHE_SIZE sys outDisk outCache
  let (status, s) ← strideLoop CACHE_SIZE sys fuel stride inputSize.toNat fuel
    ⟨inf, outf, 0, 0, blockSize, []⟩
  let _ ← io300Close CACHE_SIZE sys s.inf
  let (_, outf) ← io300Close CACHE_SIZE sys s.outf
  return (status, outf.os.data, s.reads)

/-! ## `byte_cat.c` and `diabolical_byte_cat.c` -/

/-- The loop of `byte_cat.c`. -/
def byteLoop : ℕ → Io300File Os → Io300File Os → Except Abort (ℤ × Io300File Os × Io300File Os)
  | 0, inf, outf => .ok (0, inf, outf)
  | n + 1, inf, outf => do
    let (ch, inf) ← io300Readc CACHE_SIZE sys inf
    if ch = -1 then return (1, inf, outf)
    let (r, outf) ← io300Writec CACHE_SIZE sys outf ch
    if r = -1 then return (1, inf, outf)
    byteLoop n inf outf

/-- What `byte_cat.c`, `diabolical_byte_cat.c` and `random_block_cat.c` do around their loops. -/
def catMain (loop : ℕ → Io300File Os → Io300File Os → Except Abort (ℤ × Io300File Os × Io300File Os))
    (inDisk inCache outDisk outCache : List UInt8) : Except Abort (ℤ × List UInt8) := do
  let inf ← io300Open CACHE_SIZE sys inDisk inCache
  let outf ← io300Open CACHE_SIZE sys outDisk outCache
  let (filesize, inf) ← io300Filesize CACHE_SIZE sys inf
  if filesize ≤ 0 then
    let _ ← io300Close CACHE_SIZE sys inf
    let (_, outf) ← io300Close CACHE_SIZE sys outf
    return (1, outf.os.data)
  let (status, inf, outf) ← loop filesize.toNat inf outf
  let _ ← io300Close CACHE_SIZE sys inf
  let (_, outf) ← io300Close CACHE_SIZE sys outf
  return (status, outf.os.data)

/-- `byte_cat <in-file> <out-file>`. -/
def byteCat (inDisk inCache outDisk outCache : List UInt8) : Except Abort (ℤ × List UInt8) :=
  catMain CACHE_SIZE sys (byteLoop CACHE_SIZE sys) inDisk inCache outDisk outCache

/-- The unnecessary seeks of `diabolical_byte_cat.c`: to the start and to the last byte. -/
def diabolicalSeeks (filesize : ℕ) : ℕ → Io300File Os → Except Abort (ℤ × Io300File Os)
  | 0, inf => .ok (0, inf)
  | j + 1, inf => do
    let (r, inf) ← io300Seek CACHE_SIZE sys inf 0
    if r = -1 then return (1, inf)
    let (r, inf) ← io300Seek CACHE_SIZE sys inf ((filesize : ℤ) - 1)
    if r = -1 then return (1, inf)
    diabolicalSeeks filesize j inf

/-- The loop of `diabolical_byte_cat.c` over the positions `is`. -/
def diabolicalLoop (filesize : ℕ) :
    List ℕ → Io300File Os → Io300File Os → Except Abort (ℤ × Io300File Os × Io300File Os)
  | [], inf, outf => .ok (0, inf, outf)
  | i :: is, inf, outf => do
    let (ch, inf) ← io300Readc CACHE_SIZE sys inf
    if ch = -1 then return (1, inf, outf)
    let (status, inf) ← diabolicalSeeks CACHE_SIZE sys filesize 10 inf
    if status = 1 then return (1, inf, outf)
    let (r, inf) ← io300Seek CACHE_SIZE sys inf ((i : ℤ) + 1)
    if r = -1 then return (1, inf, outf)
    let (r, outf) ← io300Writec CACHE_SIZE sys outf ch
    if r = -1 then return (1, inf, outf)
    diabolicalLoop filesize is inf outf

/-- `diabolical_byte_cat <in-file> <out-file>`. -/
def diabolicalByteCat (inDisk inCache outDisk outCache : List UInt8) :
    Except Abort (ℤ × List UInt8) :=
  catMain CACHE_SIZE sys (fun filesize => diabolicalLoop CACHE_SIZE sys filesize (List.range filesize))
    inDisk inCache outDisk outCache

/-! ## `block_cat.c` and `random_block_cat.c` -/

/-- The loop of both programs, whose `k`-th block has the size `size k`; it ends with the exit
    status. -/
def blockLoop (size : ℕ → ℕ) :
    ℕ → ℕ → ℤ → Io300File Os → Io300File Os → Except Abort (ℤ × Io300File Os × Io300File Os)
  | 0, _, _, _, _ => .error .running
  | n + 1, k, status, inf, outf => do
    let ((r, buffer), inf) ← io300Read CACHE_SIZE sys.device fuel inf (size k)
    if r = 0 ∨ r = -1 then return (status, inf, outf)
    let (w, outf) ← io300Write CACHE_SIZE sys.device fuel outf buffer
    blockLoop size n (k + 1) (if w = -1 then 1 else status) inf outf

/-- `block_cat <buffer-size> <in-file> <out-file>`; a size of 0 only prints a message. -/
def blockCat (bufferSize : ℕ) (inDisk inCache outDisk outCache : List UInt8) :
    Except Abort (ℤ × List UInt8) := do
  let inf ← io300Open CACHE_SIZE sys inDisk inCache
  let outf ← io300Open CACHE_SIZE sys outDisk outCache
  let (status, inf, outf) ← blockLoop CACHE_SIZE sys fuel (fun _ => bufferSize) fuel 0 0 inf outf
  let _ ← io300Close CACHE_SIZE sys inf
  let (_, outf) ← io300Close CACHE_SIZE sys outf
  return (status, outf.os.data)

def MAX_BLOCK_SIZE : ℕ := 30

/-- `random_block_cat <in-file> <out-file>`, where `rand k` is the result of the `k`-th call of
    `rand`. -/
def randomBlockCat (rand : ℕ → ℕ) (inDisk inCache outDisk outCache : List UInt8) :
    Except Abort (ℤ × List UInt8) :=
  catMain CACHE_SIZE sys
    (fun _ => blockLoop CACHE_SIZE sys fuel (fun k => rand k % MAX_BLOCK_SIZE + 1) fuel 0 0)
    inDisk inCache outDisk outCache

end

end CProj.FileIO.Student
