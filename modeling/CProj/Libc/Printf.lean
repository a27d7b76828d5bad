/-
  `printer::vprintf` and `snprintf` (lib.cc).

  A format string is read as the strings of `strtoul` are.  The printer is a parameter: `putc` is
  its virtual function, on a state of any type.  An argument is a slot of the `va_list` and, for
  `%s`, the memory it points to.  `numbuf` is kept over the directives, like the array of the
  source, and a write outside it is a fault.
-/
import CProj.Libc.Strtoul

namespace CProj.Libc

/-- An argument of `vprintf`. -/
structure Arg where
  word : BitVec 64
  str : List UInt8 := []
  deriving DecidableEq, Repr

/-- The next argument of a `va_list`. -/
def vaArg : List Arg → Except Fault (Arg × List Arg)
  | [] => .error .noArgument
  | a :: args => .ok (a, args)

/-- The conversion to `int`. -/
def toInt (x : ℤ) : ℤ := Int.bmod x (2 ^ 32)

/-- The argument as an `int`. -/
def Arg.int (a : Arg) : ℤ := (a.word.setWidth 32).toInt

def NUMBUFSIZ : ℕ := 24

/-- `buf[i] = c` -/
def put (buf : List UInt8) (i : ℕ) (c : UInt8) : Except Fault (List UInt8) :=
  if i < buf.length then .ok (buf.set i c) else .error .outOfBounds

def strlen : List UInt8 → Except Fault ℕ
  | [] => .error .outOfBounds
  | c :: s => if c = 0 then .ok 0 else do return (← strlen s) + 1

def strnlen : List UInt8 → ℕ → Except Fault ℕ
  | _, 0 => .ok 0
  | [], _ + 1 => .error .outOfBounds
  | c :: s, maxlen + 1 => if c = 0 then .ok 0 else do return (← strnlen s maxlen) + 1

/-! ## The digits of a number -/

/-- The characters of a string constant. -/
def bytes (s : String) : List UInt8 := s.toList.map fun c => UInt8.ofNat c.toNat

def upperDigits : List UInt8 := bytes "0123456789ABCDEF"
def lowerDigits : List UInt8 := bytes "0123456789abcdef"

/-- The loop of `fill_numbuf`, with `numbuf_end` at the index `i`. -/
def fillDigits (digits : List UInt8) (base : ℕ) :
    ℕ → List UInt8 → ℕ → Except Fault (List UInt8 × ℕ)
  | 0, _, _ => .error .outOfBounds
  | i + 1, numbuf, val => do
    let numbuf ← put numbuf i (digits.getD (val % base) 0)
    if val / base ≠ 0 then fillDigits digits base i numbuf (val / base) else return (numbuf, i)

/-- `fill_numbuf`: the buffer, and the index at which the text of the number starts. -/
def fillNumbuf (numbuf : List UInt8) (val : ℕ) (base : ℤ) : Except Fault (List UInt8 × ℕ) := do
  let digits := if base < 0 then lowerDigits else upperDigits
  let numbuf ← put numbuf (NUMBUFSIZ - 1) 0
  fillDigits digits base.natAbs (NUMBUFSIZ - 1) numbuf val

/-! ## Reading a directive -/

def FLAG_ALT : ℕ := 1 <<< 0
def FLAG_ZERO : ℕ := 1 <<< 1
def FLAG_LEFTJUSTIFY : ℕ := 1 <<< 2
def FLAG_SPACEPOSITIVE : ℕ := 1 <<< 3
def FLAG_PLUSPOSITIVE : ℕ := 1 <<< 4
def flagChars : List UInt8 := bytes "#0- +"

def FLAG_NUMERIC : ℕ := 1 <<< 5
def FLAG_SIGNED : ℕ := 1 <<< 6
def FLAG_NEGATIVE : ℕ := 1 <<< 7
def FLAG_ALT2 : ℕ := 1 <<< 8

/-- `flags & flag` -/
def has (flags flag : ℕ) : Bool := flags &&& flag != 0

/-- The loop over the flags. -/
def readFlags : List UInt8 → ℕ → Except Fault (ℕ × List UInt8)
  | [], _ => .error .outOfBounds
  | c :: format, flags =>
    if c = 0 then .ok (flags, c :: format)
    else match flagChars.idxOf? c with
      | some i => readFlags format (flags ||| 1 <<< i)
      | none => .ok (flags, c :: format)

/-- The loop over the digits of a width or a precision. -/
def readInt : List UInt8 → ℤ → Except Fault (ℤ × List UInt8)
  | [], _ => .error .outOfBounds
  | c :: format, n =>
    if char c ≥ ch '0' ∧ char c ≤ ch '9' then readInt format (toInt (10 * n + char c - ch '0'))
    else .ok (n, c :: format)

def readWidth (format : List UInt8) (args : List Arg) :
    Except Fault (ℤ × List UInt8 × List Arg) := do
  let c ← deref format
  if c ≥ ch '1' ∧ c ≤ ch '9' then
    let (width, format) ← readInt format 0
    return (width, format, args)
  else if c = ch '*' then
    let (a, args) ← vaArg args
    return (a.int, format.drop 1, args)
  else return (-1, format, args)

/-- The precision after its point. -/
def readPoint (format : List UInt8) (args : List Arg) :
    Except Fault (ℤ × List UInt8 × List Arg) := do
  let c ← deref format
  if c ≥ ch '0' ∧ c ≤ ch '9' then
    let (precision, format) ← readInt format 0
    return (precision, format, args)
  else if c = ch '*' then
    let (a, args) ← vaArg args
    return (a.int, format.drop 1, args)
  else return (-1, format, args)

def readPrecision (format : List UInt8) (args : List Arg) :
    Except Fault (ℤ × List UInt8 × List Arg) := do
  if (← deref format) = ch '.' then
    let (precision, format, args) ← readPoint (format.drop 1) args
    return (if precision < 0 then 0 else precision, format, args)
  else return (-1, format, args)

/-- The length modifier: whether the argument is a `long`. -/
def readLength (format : List UInt8) : Except Fault (Bool × List UInt8) := do
  let c ← deref format
  if c = ch 'l' ∨ c = ch 't' ∨ c = ch 'z' then return (true, format.drop 1)
  else if c = ch 'h' then return (false, format.drop 1)
  else return (false, format)

/-! ## The conversions -/

/-- What the switch on the conversion character leaves: the new colour for `%C`, else the flags,
    the base and the number of a numeric directive, or the data of another one. -/
inductive Conversion where
  | color (color : ℤ)
  | number (flags : ℕ) (base : ℤ) (num : ℕ)
  | text (data : List UInt8)

/-- The argument of `%d`. -/
def convertSigned (length : Bool) (flags : ℕ) (args : List Arg) :
    Except Fault (Conversion × List Arg) := do
  let (a, args) ← vaArg args
  let x := if length then a.word.toInt else a.int
  let negative := if x < 0 then FLAG_NEGATIVE else 0
  let num := ((if x < 0 then -x else x) % 2 ^ 64).toNat
  return (.number (flags ||| (FLAG_NUMERIC ||| FLAG_SIGNED ||| negative)) 10 num, args)

/-- The argument of `%u`, `%x` and `%X`. -/
def convertUnsigned (base : ℤ) (length : Bool) (flags : ℕ) (args : List Arg) :
    Except Fault (Conversion × List Arg) := do
  let (a, args) ← vaArg args
  let num := if length then a.word.toNat else a.word.toNat % 2 ^ 32
  return (.number (flags ||| FLAG_NUMERIC) base num, args)

/-- The two characters written to `numbuf` for `%c` and an unknown directive. -/
def putChar (numbuf : List UInt8) (c : UInt8) : Except Fault (List UInt8) := do
  let numbuf ← put numbuf 0 c
  put numbuf 1 0

/-- The switch on the conversion character, with `numbuf` and the arguments after it. -/
def convert (format : List UInt8) (length : Bool) (flags : ℕ) (args : List Arg)
    (numbuf : List UInt8) : Except Fault (Conversion × List Arg × List UInt8) := do
  let c ← deref format
  if c = ch 'd' ∨ c = ch 'i' then
    let (conv, args) ← convertSigned length flags args
    return (conv, args, numbuf)
  else if c = ch 'u' then
    let (conv, args) ← convertUnsigned 10 length flags args
    return (conv, args, numbuf)
  else if c = ch 'x' then
    let (conv, args) ← convertUnsigned (-16) length flags args
    return (conv, args, numbuf)
  else if c = ch 'X' then
    let (conv, args) ← convertUnsigned 16 length flags args
    return (conv, args, numbuf)
  else if c = ch 'p' then
    let (a, args) ← vaArg args
    return (.number (flags ||| (FLAG_ALT ||| FLAG_ALT2 ||| FLAG_NUMERIC)) (-16) a.word.toNat,
      args, numbuf)
  else if c = ch 's' then
    let (a, args) ← vaArg args
    return (.text a.str, args, numbuf)
  else if c = ch 'C' then
    let (a, args) ← vaArg args
    return (.color a.int, args, numbuf)
  else if c = ch 'c' then
    let (a, args) ← vaArg args
    let numbuf ← putChar numbuf (UInt8.ofNat (a.word.toNat % 256))
    return (.text numbuf, args, numbuf)
  else
    let numbuf ← putChar numbuf (if c = 0 then 37 else format.headD 0)
    return (.text numbuf, args, numbuf)

/-- What precedes the digits of a number. -/
def numberPrefix (flags : ℕ) (base : ℤ) (num : ℕ) : List UInt8 :=
  if has flags FLAG_NUMERIC && has flags FLAG_SIGNED then
    if has flags FLAG_NEGATIVE then bytes "-"
    else if has flags FLAG_PLUSPOSITIVE then bytes "+"
    else if has flags FLAG_SPACEPOSITIVE then bytes " "
    else []
  else if has flags FLAG_NUMERIC && has flags FLAG_ALT && (base == 16 || base == -16) &&
      (num != 0 || has flags FLAG_ALT2) then
    if base = -16 then bytes "0x" else bytes "0X"
  else []

/-- `datalen` -/
def dataLength (flags : ℕ) (precision : ℤ) (data : List UInt8) : Except Fault ℤ := do
  if precision ≥ 0 ∧ has flags FLAG_NUMERIC = false then
    return toInt (← strnlen data precision.toNat)
  else return toInt (← strlen data)

/-- `zeros` -/
def zeroCount (flags : ℕ) (width precision datalen prefixlen : ℤ) : ℤ :=
  if has flags FLAG_NUMERIC ∧ precision ≥ 0 then
    if precision > datalen then precision - datalen else 0
  else if has flags FLAG_NUMERIC ∧ has flags FLAG_ZERO ∧ has flags FLAG_LEFTJUSTIFY = false ∧
      datalen + prefixlen < width then
    toInt (width - datalen - prefixlen)
  else 0

/-! ## Printing -/

section
variable {σ : Type} (putc : σ → UInt8 → ℤ → σ)

/-- The characters `cs` printed one after the other. -/
def putAll (color : ℤ) (p : σ) (cs : List UInt8) : σ := cs.foldl (fun p c => putc p c color) p

/-- The loop over the first `n` characters of `data`. -/
def putData (color : ℤ) : List UInt8 → ℕ → σ → Except Fault σ
  | _, 0, p => .ok p
  | [], _ + 1, _ => .error .outOfBounds
  | c :: data, n + 1, p => putData color data n (putc p c color)

/-- The output loops of a directive. -/
def printField (color : ℤ) (flags : ℕ) (width precision : ℤ) (pre data : List UInt8) (p : σ) :
    Except Fault σ := do
  let datalen ← dataLength flags precision data
  let zeros := zeroCount flags width precision datalen pre.length
  let width := toInt (width - (datalen + zeros + pre.length))
  let left := has flags FLAG_LEFTJUSTIFY
  let p := if left then p else putAll putc color p (List.replicate width.toNat 32)
  let p := putAll putc color p pre
  let p := putAll putc color p (List.replicate zeros.toNat 48)
  let p ← putData putc color data datalen.toNat p
  return if left then putAll putc color p (List.replicate width.toNat 32) else p

/-- The state of `vprintf` between two rounds of its loop. -/
structure Printing (σ : Type) where
  format : List UInt8
  args : List Arg
  color : ℤ
  numbuf : List UInt8
  printer : σ

/-- One directive, with `format` after its `%`. -/
def directive (s : Printing σ) : Except Fault (Printing σ) := do
  let (flags, format) ← readFlags s.format 0
  let (width, format, args) ← readWidth format s.args
  let (precision, format, args) ← readPrecision format args
  let (length, format) ← readLength format
  let (conv, args, numbuf) ← convert format length flags args s.numbuf
  -- at the end of the string, `format--` undoes the `++format` of the loop
  let next := if format.headD 0 = 0 then format else format.drop 1
  match conv with
  | .color color => return { s with format := next, args := args, color := color, numbuf := numbuf }
  | .number flags base num =>
    let (numbuf, start) ← fillNumbuf numbuf num base
    let p ← printField putc s.color flags width precision (numberPrefix flags base num)
      (numbuf.drop start) s.printer
    return { s with format := next, args := args, numbuf := numbuf, printer := p }
  | .text data =>
    let p ← printField putc s.color flags width precision [] data s.printer
    return { s with format := next, args := args, numbuf := numbuf, printer := p }

/-- The loop over the format. -/
def vprintfLoop : ℕ → Printing σ → Except Fault σ
  | 0, _ => .error .running
  | fuel + 1, s => do
    let c ← deref s.format
    if c = 0 then return s.printer
    else if c ≠ ch '%' then
      let p := putc s.printer (s.format.headD 0) s.color
      vprintfLoop fuel { s with format := s.format.drop 1, printer := p }
    else vprintfLoop fuel (← directive putc { s with format := s.format.drop 1 })

/-- `printer::vprintf`, with the contents of the uninitialised `numbuf`. -/
def vprintf (numbuf : List UInt8) (p : σ) (color : ℤ) (format : List UInt8) (args : List Arg) :
    Except Fault σ :=
  vprintfLoop putc (format.length + 1) ⟨format, args, color, numbuf, p⟩

end

/-! ## Printing into a buffer -/

/-- `string_printer`: its memory, and `s_` as an index. -/
structure StringPrinter where
  buf : List UInt8
  s_ : ℕ
  n_ : ℕ

def StringPrinter.putc (p : StringPrinter) (c : UInt8) (_ : ℤ) : StringPrinter :=
  if p.s_ < p.buf.length then ⟨p.buf.set p.s_ c, p.s_ + 1, (p.n_ + 1) % 2 ^ 64⟩
  else { p with n_ := (p.n_ + 1) % 2 ^ 64 }

/-- `vsnprintf` into the memory `buf`: its contents afterwards, and the result. -/
def vsnprintf (numbuf buf format : List UInt8) (args : List Arg) :
    Except Fault (List UInt8 × ℤ) := do
  let sp ← vprintf StringPrinter.putc numbuf ⟨buf, 0, 0⟩ 0 format args
  let size := buf.length
  let buf ← if size ≠ 0 ∧ sp.s_ < size then put sp.buf sp.s_ 0
    else if size ≠ 0 then put sp.buf (size - 1) 0
    else pure sp.buf
  return (buf, toLong sp.n_)

def snprintf (numbuf buf format : List UInt8) (args : List Arg) :
    Except Fault (List UInt8 × ℤ) := do
  let (buf, n) ← vsnprintf numbuf buf format args
  return (buf, toInt n)

example : snprintf (List.replicate 24 7) (List.replicate 12 9) (bytes "%+05d%%|" ++ [0]) [⟨7, []⟩] =
    .ok (bytes "+0007%|" ++ [0] ++ List.replicate 4 9, 7) := by decide +kernel

end CProj.Libc
