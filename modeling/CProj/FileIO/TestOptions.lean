/-
  The command line of `io300_test.c`.

  `main` gets the options from `getopt` and takes the other arguments one after another (`options`).
  What it accepts (`Options.Accepted`) is what the test relies on, but for the size of a write, for
  which `main` compares the size of a read with `MAX_BLOCK_SIZE` once more.
-/
import CProj.FileIO.Student
import CProj.Lib.Run

namespace CProj.FileIO.Tester

/-! ## The arguments -/

def MAX_BLOCK_SIZE : ℕ := 30

/-- The elements of `operations[]`. -/
inductive Operation where
  | readc | writec | read | write
  deriving DecidableEq, Repr

/-- The variables of the test that `main` sets; a size of 0 stands for random sizes. -/
structure Options where
  operations : List Operation := []
  seeking : Bool := false
  readSize : ℕ := 0
  writeSize : ℕ := 0
  fileSize : ℕ := 8192
  maxSize : ℕ := 16384
  numOps : ℕ := 1000
  deriving DecidableEq, Repr

/-- The command line as `getopt` leaves it: the options with their arguments (an option that it does
    not know is a `?`), and the other arguments. -/
structure CommandLine where
  options : List (Char × String)
  args : List String

/-- How `main` ends before the test. -/
inductive Halt where
  | exit (status : ℤ)
  | abort (a : Abort)
  deriving DecidableEq, Repr

def isspace (c : Char) : Bool := c == ' ' || '\t' ≤ c && c ≤ '\r'

/-- `strtol(str, &endptr, 10)` of the C library: the number, and the rest of the string. -/
def strtol (str : List Char) : ℤ × List Char :=
  let s := str.dropWhile isspace
  let negative := s.head? == some '-'
  let s := if negative || s.head? == some '+' then s.drop 1 else s
  let digits := s.takeWhile Char.isDigit
  if digits = [] then (0, str)
  else
    let x : ℤ := digits.foldl (fun x c => 10 * x + (c.toNat - '0'.toNat)) 0
    (max (-2 ^ 63) (min (2 ^ 63 - 1) (if negative then -x else x)), s.dropWhile Char.isDigit)

/-- `interpret_size`; `main` exits with 1 where it fails. -/
def interpretSize (str : List Char) (allowZero : Bool) : Except Halt ℕ :=
  let (size, endptr) := strtol str
  if endptr ≠ [] then .error (.exit 1)
  else if size < 0 ∨ size = 0 ∧ ¬ allowZero then .error (.exit 1)
  else .ok size.toNat

/-- An option that `getopt` has found. -/
def getOption (o : Options) : Char × String → Except Halt Options
  | ('s', optarg) => do return { o with fileSize := ← interpretSize optarg.toList true }
  | ('m', optarg) => do return { o with maxSize := ← interpretSize optarg.toList false }
  | ('n', optarg) => do return { o with numOps := ← interpretSize optarg.toList false }
  | _ => .error (.exit 1)

/-- `operations[num_test_ops] = op; num_test_ops++`, where `operations` has 4 elements. -/
def Options.add (o : Options) (op : Operation) : Except Halt Options :=
  if o.operations.length < 4 then .ok { o with operations := o.operations ++ [op] }
  else .error (.abort .outOfBounds)

/-- An argument of the command line; `alone` if it is the only one. -/
def getArg (alone : Bool) (o : Options) (arg : String) : Except Halt Options :=
  if arg = "all" then
    if alone then
      .ok { o with operations := [.readc, .writec, .read, .write], seeking := true }
    else .error (.exit 1)
  else if arg = "seek" then .ok { o with seeking := true }
  else if arg = "readc" then o.add .readc
  else if arg = "writec" then o.add .writec
  else if arg = "read" then o.add .read
  else if arg.toList.take 5 = "read=".toList then do
    let readSize ← interpretSize (arg.toList.drop 5) false
    if readSize > MAX_BLOCK_SIZE then .error (.exit 1)
    else Options.add { o with readSize := readSize } .read
  else if arg = "write" then o.add .write
  else if arg.toList.take 6 = "write=".toList then do
    let writeSize ← interpretSize (arg.toList.drop 6) false
    -- the size of a read
    if o.readSize > MAX_BLOCK_SIZE then .error (.exit 1)
    else Options.add { o with writeSize := writeSize } .write
  else .error (.exit 1)

/-- The first part of `main`. -/
def options (cl : CommandLine) : Except Halt Options :=
  -- `argc == 1`
  if cl.options = [] ∧ cl.args = [] then .error (.exit 1)
  else do
    let o ← run getOption {} cl.options
    if o.maxSize < o.fileSize then .error (.exit 1)
    else if cl.args = [] then .error (.exit 1)
    else do
      let o ← run (getArg (cl.args.length = 1)) o cl.args
      if o.operations = [] then .error (.exit 1)
      else .ok o

/-! ## What is accepted -/

structure Options.Accepted (o : Options) : Prop where
  operations_ne : o.operations ≠ []
  operations_le : o.operations.length ≤ 4
  readSize_le : o.readSize ≤ MAX_BLOCK_SIZE
  maxSize_pos : 0 < o.maxSize
  fileSize_le : o.fileSize ≤ o.maxSize
  maxSize_lt : o.maxSize < 2 ^ 63
  writeSize_lt : o.writeSize < 2 ^ 63

variable {o o' : Options} {str : List Char} {allowZero : Bool} {n : ℕ}

theorem strtol_lt (str : List Char) : (strtol str).1 < 2 ^ 63 := by
  rw [strtol]
  simp only
  split_ifs <;> simp only <;> omega

theorem interpretSize_ok (h : interpretSize str allowZero = .ok n) :
    n < 2 ^ 63 ∧ (allowZero = false → 0 < n) := by
  have hlt := strtol_lt str
  rw [interpretSize] at h
  simp only at h
  split_ifs at h with hend hsize
  cases h
  refine ⟨by omega, fun hzero => ?_⟩
  rw [hzero] at hsize
  simp only [Bool.false_eq_true, not_false_eq_true, and_true, not_or, not_lt] at hsize
  omega

/-- The options set the sizes of the file, and no others. -/
structure FromOptions (o : Options) : Prop where
  operations : o.operations = []
  readSize : o.readSize = 0
  writeSize : o.writeSize = 0
  maxSize_pos : 0 < o.maxSize
  maxSize_lt : o.maxSize < 2 ^ 63

theorem FromOptions.getOption (h : FromOptions o) {c : Char × String}
    (hres : Tester.getOption o c = .ok o') : FromOptions o' := by
  unfold Tester.getOption at hres
  split at hres
  · obtain ⟨n, -, hres⟩ := bind_eq_ok.1 hres
    cases hres
    exact ⟨h.operations, h.readSize, h.writeSize, h.maxSize_pos, h.maxSize_lt⟩
  · obtain ⟨n, hsize, hres⟩ := bind_eq_ok.1 hres
    cases hres
    obtain ⟨hlt, hpos⟩ := interpretSize_ok hsize
    exact ⟨h.operations, h.readSize, h.writeSize, hpos rfl, hlt⟩
  · obtain ⟨n, -, hres⟩ := bind_eq_ok.1 hres
    cases hres
    exact ⟨h.operations, h.readSize, h.writeSize, h.maxSize_pos, h.maxSize_lt⟩
  · cases hres

/-- The arguments leave the sizes of the file as they are. -/
structure FromArgs (o₀ o : Options) : Prop where
  operations_le : o.operations.length ≤ 4
  readSize_le : o.readSize ≤ MAX_BLOCK_SIZE
  writeSize_lt : o.writeSize < 2 ^ 63
  fileSize : o.fileSize = o₀.fileSize
  maxSize : o.maxSize = o₀.maxSize

section
variable {o₀ : Options}

theorem FromArgs.add (h : FromArgs o₀ o) {op : Operation} (hres : o.add op = .ok o') :
    FromArgs o₀ o' := by
  rw [Options.add] at hres
  split_ifs at hres with hlt
  cases hres
  refine ⟨?_, h.readSize_le, h.writeSize_lt, h.fileSize, h.maxSize⟩
  rw [List.length_append]
  exact hlt

theorem FromArgs.getArg (h : FromArgs o₀ o) {alone : Bool} {arg : String}
    (hres : Tester.getArg alone o arg = .ok o') : FromArgs o₀ o' := by
  rw [Tester.getArg] at hres
  split at hres
  · split at hres
    · cases hres
      exact ⟨le_rfl, h.readSize_le, h.writeSize_lt, h.fileSize, h.maxSize⟩
    · cases hres
  split at hres
  · cases hres
    exact ⟨h.operations_le, h.readSize_le, h.writeSize_lt, h.fileSize, h.maxSize⟩
  split at hres
  · exact h.add hres
  split at hres
  · exact h.add hres
  split at hres
  · exact h.add hres
  split at hres
  · obtain ⟨n, -, hres⟩ := bind_eq_ok.1 hres
    split_ifs at hres with hle
    have h' : FromArgs o₀ { o with readSize := n } :=
      ⟨h.operations_le, Nat.le_of_not_lt hle, h.writeSize_lt, h.fileSize, h.maxSize⟩
    exact h'.add hres
  split at hres
  · exact h.add hres
  split at hres
  · obtain ⟨n, hsize, hres⟩ := bind_eq_ok.1 hres
    split_ifs at hres
    have h' : FromArgs o₀ { o with writeSize := n } :=
      ⟨h.operations_le, h.readSize_le, (interpretSize_ok hsize).1, h.fileSize, h.maxSize⟩
    exact h'.add hres
  · cases hres

end

theorem options_accepted {cl : CommandLine} (h : options cl = .ok o) : o.Accepted := by
  rw [options] at h
  split at h
  · cases h
  obtain ⟨o₁, hopts, h⟩ := bind_eq_ok.1 h
  by_cases hsize : o₁.maxSize < o₁.fileSize
  · rw [if_pos hsize] at h
    cases h
  rw [if_neg hsize] at h
  split at h
  · cases h
  obtain ⟨o₂, hargs, h⟩ := bind_eq_ok.1 h
  split_ifs at h with hops
  cases h
  have h₁ : FromOptions o₁ := run_inv (A := fun _ => True) (C := fun _ _ => True) FromOptions
    (fun _ _ _ h _ _ hres => h.getOption hres) ⟨rfl, rfl, rfl, by decide, by decide⟩
    (fun _ _ => trivial) meets_true hopts
  have h₀ : FromArgs o₁ o₁ := by
    refine ⟨?_, ?_, ?_, rfl, rfl⟩
    · rw [h₁.operations]
      exact Nat.zero_le _
    · rw [h₁.readSize]
      exact Nat.zero_le _
    · rw [h₁.writeSize]
      decide
  have h₂ : FromArgs o₁ o := run_inv (A := fun _ => True) (C := fun _ _ => True) (FromArgs o₁)
    (fun _ _ _ h _ _ hres => h.getArg hres) h₀ (fun _ _ => trivial) meets_true hargs
  refine ⟨hops, h₂.operations_le, h₂.readSize_le, ?_, ?_, ?_, h₂.writeSize_lt⟩
  · rw [h₂.maxSize]
    exact h₁.maxSize_pos
  · rw [h₂.maxSize, h₂.fileSize]
    exact Nat.le_of_not_lt hsize
  · rw [h₂.maxSize]
    exact h₁.maxSize_lt

/-- The size of a write is not compared with `MAX_BLOCK_SIZE`. -/
example : options ⟨[('m', "90"), ('s', "8")], ["write=31"]⟩ = .ok
    { operations := [.write], writeSize := 31, fileSize := 8, maxSize := 90 } := by decide +kernel

end CProj.FileIO.Tester
