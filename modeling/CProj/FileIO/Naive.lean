/-
  The uncached implementation of `io300.h` (`fileio/impl/naive.c`), and sessions: sequences of
  calls that an implementation answers one after the other.
-/
import CProj.FileIO.Student

namespace CProj.FileIO

/-! ## Calls and their answers -/

/-- A call on an open handle. -/
inductive Op where
  | seek (pos : ℤ)
  | readc
  | read (sz : ℕ)
  | writec (ch : ℤ)
  | write (buff : List UInt8)
  deriving DecidableEq, Repr

/-- What a call gives back: the value returned and the bytes placed into the caller's buffer. -/
structure Reply where
  ret : ℤ
  buff : List UInt8
  deriving DecidableEq, Repr

/-- The number of bytes a call asks to transfer by a loop. -/
def Op.size : Op → ℕ
  | .read sz => sz
  | .write buff => buff.length
  | _ => 0

/-- The call is no seek to a negative offset. -/
def Op.NonNeg : Op → Prop
  | .seek pos => 0 ≤ pos
  | _ => True

/-- The call is a seek to a non-negative offset or a read. -/
def Op.ReadOnly : Op → Prop
  | .seek pos => 0 ≤ pos
  | .readc | .read _ => True
  | .writec _ | .write _ => False

/-! ## `naive.c` -/

namespace Naive

section
variable (sys : Sys)

def io300Seek (os : Os) (pos : ℤ) : ℤ × Os :=
  let (r, os) := lseek sys os pos
  (toInt r, os)

def io300Readc (os : Os) : ℤ × Os :=
  match FileIO.read sys os 1 with
  | (some [c], os) => (c.toNat, os)
  | (_, os) => (-1, os)

def io300Writec (os : Os) (ch : ℤ) : ℤ × Os :=
  match FileIO.write sys os [toChar ch] with
  | (some 1, os) => (ch, os)
  | (_, os) => (-1, os)

def io300Read (os : Os) (sz : ℕ) : (ℤ × List UInt8) × Os :=
  match FileIO.read sys os sz with
  | (some bs, os) => ((bs.length, bs), os)
  | (none, os) => ((-1, []), os)

def io300Write (os : Os) (buff : List UInt8) : ℤ × Os :=
  match FileIO.write sys os buff with
  | (some n, os) => (n, os)
  | (none, os) => (-1, os)

/-- A call on `naive.c`; none of them aborts. -/
def call (os : Os) : Op → Except Abort (Reply × Os)
  | .seek pos => let (r, os) := io300Seek sys os pos; .ok (⟨r, []⟩, os)
  | .readc => let (r, os) := io300Readc sys os; .ok (⟨r, []⟩, os)
  | .read sz => let ((r, bs), os) := io300Read sys os sz; .ok (⟨r, bs⟩, os)
  | .writec ch => let (r, os) := io300Writec sys os ch; .ok (⟨r, []⟩, os)
  | .write buff => let (r, os) := io300Write sys os buff; .ok (⟨r, []⟩, os)

end

end Naive

/-! ## `student.c` -/

/-- A call on `student.c`. -/
def Student.call (CACHE_SIZE : ℕ) (sys : Sys) (fuel : ℕ) (f : Student.Io300File Os) :
    Op → Except Abort (Reply × Student.Io300File Os)
  | .seek pos => do
    let (r, f) ← io300Seek CACHE_SIZE sys f pos
    return (⟨r, []⟩, f)
  | .readc => do
    let (r, f) ← io300Readc CACHE_SIZE sys f
    return (⟨r, []⟩, f)
  | .read sz => do
    let ((r, bs), f) ← io300Read CACHE_SIZE sys.device fuel f sz
    return (⟨r, bs⟩, f)
  | .writec ch => do
    let (r, f) ← io300Writec CACHE_SIZE sys f ch
    return (⟨r, []⟩, f)
  | .write buff => do
    let (r, f) ← io300Write CACHE_SIZE sys.device fuel f buff
    return (⟨r, []⟩, f)

/-! ## The logical file -/

/-- The file as the caller of a session sees it, with the position of the handle. -/
structure Logical where
  contents : List UInt8
  head : ℕ
  deriving DecidableEq, Repr

/-- The logical file after a call that was answered with `r`: a seek sets the head, a write stores
    its bytes at the head, and the head moves by the number of bytes transferred. -/
def Logical.after (l : Logical) (op : Op) (r : Reply) : Logical :=
  match op with
  | .seek pos => { l with head := pos.toNat }
  | .readc => { l with head := l.head + if r.ret = -1 then 0 else 1 }
  | .read _ => { l with head := l.head + r.ret.toNat }
  | .writec ch => ⟨store 0 l.contents l.head [toChar ch], l.head + 1⟩
  | .write buff => ⟨store 0 l.contents l.head buff, l.head + r.ret.toNat⟩

namespace Student

/-- A session on `student.c`: the handle, and the logical file that its calls describe. -/
structure Session where
  f : Io300File Os
  file : Logical
  deriving DecidableEq, Repr

/-- One call of a session. -/
def Session.step (CACHE_SIZE : ℕ) (sys : Sys) (fuel : ℕ) (s : Session) (op : Op) :
    Except Abort Session := do
  let (r, f) ← call CACHE_SIZE sys fuel s.f op
  return ⟨f, s.file.after op r⟩

/-- The session that opens a file with the contents `disk`. -/
def Session.start (CACHE_SIZE : ℕ) (sys : Sys) (disk garbage : List UInt8) :
    Except Abort Session := do
  let f ← io300Open CACHE_SIZE sys disk garbage
  return ⟨f, ⟨disk, 0⟩⟩

end Student

end CProj.FileIO
