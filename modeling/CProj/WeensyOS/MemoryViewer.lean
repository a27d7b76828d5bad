/-
  The usage map of the memory viewer (`memusage` of `weensyos/k-memviewer.cc`).

  The map `v_` is a page of 1024 entries of 32 bits, two in each word of the page.  `refresh` marks
  in it the page tables of the kernel and of the processes, and the pages that the processes have
  access to.
-/
import CProj.WeensyOS.Ranges
import CProj.WeensyOS.Enumerate
import CProj.WeensyOS.Invariant

namespace CProj.WeensyOS

/-! ## The map -/

def maxpa : ℕ := 1024 * PAGESIZE

def fKernel : ℕ := 1
def fUser : ℕ := 2

/-- `f_process(pid)`, an `unsigned`. -/
def fProcess (pid : ℤ) : ℕ :=
  if pid ≥ 30 then 2 <<< 31 % 2 ^ 32 else if pid ≥ 1 then 2 <<< pid.toNat % 2 ^ 32 else 0

/-- The conversion of an `unsigned` to an `int`. -/
def toInt32 (x : ℕ) : ℤ := if x < 2 ^ 31 then x else x - 2 ^ 32

/-- `v_[k]`. -/
def usageAt (m : Mem) (v k : ℕ) : ℕ := m (v / PAGESIZE) (k / 2) >>> (32 * (k % 2)) % 2 ^ 32

/-- `v_[k] |= flags`. -/
def orUsage (m : Mem) (v k flags : ℕ) : Mem :=
  m.set (v / PAGESIZE) (k / 2) (m (v / PAGESIZE) (k / 2) ||| flags <<< (32 * (k % 2)))

def mark (m : Mem) (v pa flags : ℕ) : Mem :=
  if pa < maxpa then orUsage m v (pa / PAGESIZE) flags else m

/-! ## The loops -/

/-- `low()`. -/
def Vmiter.low (it : Vmiter) : Bool := it.va ≤ VA_LOWMAX

/-- The loop over the page table pages below a root. -/
def markTables (v flags : ℕ) : ℕ → Ptiter → Mem → Except Fault Mem
  | 0, _, _ => .error .running
  | fuel + 1, it, m =>
    if it.active then do
      let m := mark m v (it.pa m) flags
      markTables v flags fuel (← it.next m) m
    else .ok m

/-- The loop over the addresses that the user has access to. -/
def markUser (v flags : ℕ) : ℕ → Vmiter → Mem → Except Fault Mem
  | 0, _, _ => .error .running
  | fuel + 1, it, m =>
    if it.low then
      if it.user m then do
        let m := mark m v (it.pa m) flags
        markUser v flags fuel (← it.next m) m
      else do markUser v flags fuel (← it.nextRange m) m
    else .ok m

/-- The body of the loop over the processes, for one with a page table of its own. -/
def markProc (s : State) (pid : ℕ) (m : Mem) : Except Fault Mem := do
  let pagetable := (s.ptable pid).pagetable
  let m ← markTables s.viewer (fKernel ||| fProcess pid) Ptiter.fuel (← Ptiter.create m pagetable 0) m
  let m := mark m s.viewer pagetable (fKernel ||| fProcess pid)
  markUser s.viewer (fUser ||| fProcess pid) Vmiter.lowFuel (← Vmiter.create m pagetable 0) m

/-- The loop for the physical addresses that are in use, when there is no process. -/
def markPhysical (s : State) : ℕ → Vmiter → Mem → Except Fault Mem
  | 0, _, _ => .error .running
  | fuel + 1, it, m =>
    if it.low then
      if it.user m ∧ it.pa m < MEMSIZE_PHYSICAL ∧ s.pages (it.pa m / PAGESIZE) ≠ 0 then do
        -- `unsigned owner`
        let owner := vaSub (it.pa m) PROC_START_ADDR / 0x40000 % 2 ^ 32
        let m := mark m s.viewer (it.pa m) (fUser ||| fProcess (toInt32 ((owner + 1) % 2 ^ 32)))
        markPhysical s fuel (← it.next m) m
      else do markPhysical s fuel (← it.nextRange m) m
    else .ok m

section
variable (L : Layout)

/-- The slot `pid` holds a process with a page table of its own. -/
def State.OwnTable (s : State) (pid : ℕ) : Prop := (s.ptable pid).state ≠ .free ∧
  (s.ptable pid).pagetable ≠ 0 ∧ (s.ptable pid).pagetable ≠ L.kernelPagetable

instance (s : State) (pid : ℕ) : Decidable (s.OwnTable L pid) := inferInstanceAs (Decidable (_ ∧ _))

/-- The processes that `refresh` looks at. -/
def State.Viewed (s : State) (pid : ℕ) : Prop := 1 ≤ pid ∧ pid < NPROC ∧ s.OwnTable L pid

/-- The loop over the processes, with `any`. -/
def markProcs (s : State) : List ℕ → Bool → Mem → Except Fault (Bool × Mem)
  | [], any, m => .ok (any, m)
  | pid :: pids, any, m =>
    if s.OwnTable L pid then do markProcs s pids true (← markProc s pid m)
    else markProcs s pids any m

/-- The first part of `refresh`: the page of the map. -/
def allocMap (s : State) : Except Fault State := do
  if s.viewer = 0 then
    let (v, s) := kalloc L s PAGESIZE
    assert (v ≠ 0)
    return { s with viewer := v }
  else return s

/-- `memusage::refresh()`. -/
def refresh (s : State) : Except Fault State := do
  let s ← allocMap L s
  let m := s.mem.fill (s.viewer / PAGESIZE) 0
  let m ← markTables s.viewer fKernel Ptiter.fuel (← Ptiter.create m L.kernelPagetable 0) m
  let m := mark m s.viewer L.kernelPagetable fKernel
  let (any, m) ← markProcs L s (List.range' 1 (NPROC - 1)) false m
  let m ← if any then pure m
    else do markPhysical s Vmiter.lowFuel (← Vmiter.create m L.kernelPagetable 0) m
  let m := if any then mark m s.viewer s.viewer fKernel else m
  return { s with mem := m }

end

variable {L : Layout} {s : State} {m m₀ m' m'' : Mem} {v r n b l t flags pid : ℕ}

/-! ## What a mark changes -/

/-- The memory `m'` is `m` with the bits `P` marked in the map at `v`: the bit `b` of the entry of
    page `n` for `P n b`. -/
structure Marked (v : ℕ) (P : ℕ → ℕ → Prop) (m m' : Mem) : Prop where
  others : ∀ p, p ≠ v / PAGESIZE → m' p = m p
  bits : ∀ n < 1024, ∀ b < 32, (usageAt m' v n).testBit b = true ↔
    (usageAt m v n).testBit b = true ∨ P n b

section
variable {P Q : ℕ → ℕ → Prop}

theorem marked_refl : Marked v (fun _ _ => False) m m :=
  ⟨fun _ _ => rfl, fun _ _ _ _ => (or_iff_left id).symm⟩

theorem Marked.trans (h : Marked v P m m') (h' : Marked v Q m' m'') :
    Marked v (fun n b => P n b ∨ Q n b) m m'' := by
  refine ⟨fun p hp => (h'.others p hp).trans (h.others p hp), fun n hn b hb => ?_⟩
  rw [h'.bits n hn b hb, h.bits n hn b hb, or_assoc]

theorem Marked.congr (h : Marked v P m m') (hPQ : ∀ n b, P n b ↔ Q n b) : Marked v Q m m' := by
  refine ⟨h.others, fun n hn b hb => ?_⟩
  rw [h.bits n hn b hb, hPQ]

theorem Marked.agree {pages : List ℕ} (h : Marked v P m m') (hv : v / PAGESIZE ∉ pages) :
    Agree m m' pages := by
  intro p hp i
  rw [h.others p fun heq => hv (heq ▸ hp)]

theorem testBit_usageAt (hb : b < 32) : (usageAt m v n).testBit b =
    (m (v / PAGESIZE) (n / 2)).testBit (32 * (n % 2) + b) := by
  rw [usageAt, Nat.testBit_mod_two_pow, decide_eq_true hb, Bool.true_and, Nat.testBit_shiftRight]

/-- The two entries of a word do not touch each other. -/
theorem testBit_shift_entry {k : ℕ} (hf : flags < 2 ^ 32) (hb : b < 32) (hhalf : k / 2 = n / 2) :
    (flags <<< (32 * (k % 2))).testBit (32 * (n % 2) + b) =
      (decide (n = k) && flags.testBit b) := by
  rw [Nat.testBit_shiftLeft]
  by_cases hk : n = k
  · simp [hk]
  · have hparity : k % 2 = 0 ∧ n % 2 = 1 ∨ k % 2 = 1 ∧ n % 2 = 0 := by omega
    rcases hparity with ⟨h0, h1⟩ | ⟨h1, h0⟩
    · have hlarge : flags.testBit (32 + b) = false := by
        refine Nat.testBit_lt_two_pow (hf.trans_le ?_)
        exact Nat.pow_le_pow_right (by decide) (Nat.le_add_right 32 b)
      simp [h0, h1, hk, hlarge]
    · simp [h0, h1, hk, hb]

theorem marked_mark (hf : flags < 2 ^ 32) (pa : ℕ) :
    Marked v (fun n b => n = pa / PAGESIZE ∧ flags.testBit b = true) m (mark m v pa flags) := by
  rw [mark]
  by_cases hpa : pa < maxpa
  swap
  · -- the page is not in the map
    rw [if_neg hpa]
    refine ⟨fun _ _ => rfl, fun n hn b _ => (or_iff_left ?_).symm⟩
    rintro ⟨rfl, -⟩
    rw [maxpa, PAGESIZE] at hpa
    rw [PAGESIZE] at hn
    omega
  rw [if_pos hpa]
  refine ⟨fun p hp => funext fun i => set_page_ne hp i, fun n hn b hb => ?_⟩
  rw [testBit_usageAt hb, testBit_usageAt hb, orUsage]
  by_cases hhalf : pa / PAGESIZE / 2 = n / 2
  · rw [hhalf, set_self, Nat.testBit_or, testBit_shift_entry hf hb hhalf]
    simp only [Bool.or_eq_true, Bool.and_eq_true, decide_eq_true_eq]
  · rw [set_of_ne fun h => hhalf h.2.symm]
    refine (or_iff_left ?_).symm
    rintro ⟨rfl, -⟩
    exact hhalf rfl

end

end CProj.WeensyOS
