/-
  The null page is mapped.

  `kernel` means to make `nullptr` inaccessible, in the last branch of its loop over physical memory.
  That branch is dead: the address 0 lies below `PROC_START_ADDR` and is not the console's, so the
  first branch maps it for the kernel.  Every process gets the mapping from the kernel's table, and
  nothing removes it.
-/
import CProj.WeensyOS.Booting
import CProj.WeensyOS.Gaps

namespace CProj.WeensyOS

variable {L : Layout} {d : ℕ → ℕ} {s : State}

/-- No address of the null page is present. -/
structure NullUnmapped (L : Layout) (s : State) : Prop where
  kernel : ∀ va < PAGESIZE, translate s.mem (kernelRoot L) (va / PAGESIZE) = none
  procs : ∀ i, s.Live i → ∀ va < PAGESIZE, translate s.mem (s.root i) (va / PAGESIZE) = none

/-- The kernel may read and write at every address of the null page, and processes may not. -/
structure NullMapped (L : Layout) (s : State) : Prop where
  kernel : ∀ va < PAGESIZE, mapping s.mem (kernelRoot L) (va / PAGESIZE) = some (0, PTE_P ||| PTE_W)
  procs : ∀ i, s.Live i → ∀ va < PAGESIZE,
    mapping s.mem (s.root i) (va / PAGESIZE) = some (0, PTE_P ||| PTE_W)

theorem Inv.nullMapped (h : Inv L d s) : NullMapped L s := by
  have hpage : ∀ va < PAGESIZE, va / PAGESIZE = 0 := fun va hva => Nat.div_eq_of_lt hva
  refine ⟨fun va hva => ?_, fun i hi va hva => ?_⟩
  · obtain ⟨q, htr, hq⟩ := h.kernel.map 0 (by decide)
    rw [hpage va hva, mapping_eq htr, hq]
    rfl
  · obtain ⟨q, htr, hq⟩ := (h.procs i hi).half 0 (by decide)
    rw [hpage va hva, mapping_eq htr, hq]
    rfl

theorem NullMapped.not_unmapped (h : NullMapped L s) : ¬ NullUnmapped L s := by
  intro hun
  have hmap := h.kernel 0 (by decide)
  rw [mapping, hun.kernel 0 (by decide)] at hmap
  cases hmap

/-! ## Reachable states -/

/-- A state of the kernel after it has set up its page table, in a run whose calls of `process_setup`
    meet `D` and whose events meet `C`. -/
inductive Reached (L : Layout) (ramimages : String → Option Elf) (command : Option String) (s₀ : State)
    (D : State → ℕ × Option Elf → Prop) (C : State → Event → Prop) : State → Prop
  | memory {s : State} (hmem : kernelMemory L s₀ = .ok s) : Reached L ramimages command s₀ D C (initPtable s)
  | setup {s s' : State} {ps qs : List (ℕ × Option Elf)} (hmem : kernelMemory L s₀ = .ok s)
    (hps : bootPrograms ramimages command = .ok (ps ++ qs)) (hD : Meets (setupOne L) D (initPtable s) ps)
    (hrun : run (setupOne L) (initPtable s) ps = .ok s') : Reached L ramimages command s₀ D C s'
  | event {s s₁ s' : State} {ps : List (ℕ × Option Elf)} {evs : List Event} (hmem : kernelMemory L s₀ = .ok s)
    (hps : bootPrograms ramimages command = .ok ps) (hD : Meets (setupOne L) D (initPtable s) ps)
    (hkernel : kernel L ramimages command s₀ = .ok s₁) (hC : Meets (step L) C s₁ evs)
    (hrun : run (step L) s₁ evs = .ok s') : Reached L ramimages command s₀ D C s'

section
variable {ramimages : String → Option Elf} {command : Option String} {s₀ : State}

theorem Reached.mono {D : State → ℕ × Option Elf → Prop} {C : State → Event → Prop}
    (h : Reached L ramimages command s₀ D C s) :
    Reached L ramimages command s₀ (fun _ _ => True) (fun _ _ => True) s := by
  cases h with
  | memory hmem => exact .memory hmem
  | setup hmem hps _ hrun => exact .setup hmem hps meets_true hrun
  | event hmem hps _ hkernel _ hrun => exact .event hmem hps meets_true hkernel meets_true hrun

/-- **The invariant holds in every state** that the kernel reaches, as long as its programs have no gaps
    and no fork overflows a count. -/
theorem Reached.inv (hcleared : Cleared s₀) (h : Reached L ramimages command s₀ (LoadsOne L) SafeFork s) :
    ∃ d, Inv L d s := by
  cases h with
  | memory hmem => exact ⟨_, (hcleared.booting hmem).1.inv⟩
  | @setup s₁ s ps qs hmem hps hD hrun =>
    obtain ⟨hboot, hslots⟩ := hcleared.booting hmem
    obtain ⟨hnodup, -, hrange⟩ := bootPrograms_pids hps
    rw [List.map_append] at hnodup hrange
    obtain ⟨s₂, hrun', hboot₂, -⟩ := hboot.setups ps (fun x hx => by
      obtain ⟨h1, h2⟩ := hrange x.1 (List.mem_append_left _ (List.mem_map_of_mem hx))
      exact hslots x.1 h1 h2) (List.nodup_append.1 hnodup).1 hD
    rw [hrun] at hrun'
    cases hrun'
    exact ⟨_, hboot₂.inv⟩
  | event hmem hps hD hkernel hC hrun =>
    obtain ⟨s₂, hkernel', hboot⟩ := kernel_boot (L := L) ramimages command hcleared hps fun s₁ hmem' => by
      rw [hmem] at hmem'
      cases hmem'
      exact hD
    rw [hkernel] at hkernel'
    cases hkernel'
    obtain ⟨d, hgood⟩ := run_safe hboot hC hrun
    exact ⟨d, hgood.inv⟩

end

/-- The state after a reset. -/
def resetState : State := stateOf [] (fun _ _ => 0) fun _ => 0

theorem resetState_cleared : Cleared resetState := ⟨fun _ => rfl, rfl, rfl, rfl⟩

/-- Every program is one of two pages. -/
def twoPageImages : String → Option Elf := fun _ => some (twoPageElf 0x100000)

theorem twoPageImages_loads {s : State} (h : kernelMemory smallKernel resetState = .ok s) :
    Meets (setupOne smallKernel) (LoadsOne smallKernel) (initPtable s) [(1, twoPageImages "allocator")] := by
  rw [kernelMemory_eq] at h
  cases h
  have hload := twoPageElf_loadable (Or.inl rfl)
  have hcontig : Contiguous smallKernel beforeSetup (twoPageElf 0x100000).segments := by
    decide +kernel
  exact ⟨⟨_, rfl, hload.magic, hload.placed, hload.enough, hcontig⟩, fun _ _ => trivial⟩

/-- The kernel reaches the first process. -/
theorem resetState_reached : ∃ s, Boot smallKernel s ∧
    Reached smallKernel twoPageImages (some "allocator") resetState (LoadsOne smallKernel) SafeFork s := by
  have hmem := kernelMemory_eq smallKernel resetState
  obtain ⟨s, hkernel, hboot⟩ := kernel_boot (L := smallKernel) twoPageImages (some "allocator")
    resetState_cleared rfl fun _ => twoPageImages_loads
  have hsafe : Meets (step smallKernel) SafeFork s [] := trivial
  exact ⟨s, hboot, .event hmem rfl (twoPageImages_loads hmem) hkernel hsafe rfl⟩

/-- **The null page is mapped.**  There is no boot after which it is not; and in no state that is reached
    without a gap in a program and without an overflow, can an address in it be found absent. -/
theorem nullPage_mapped (L : Layout) (ramimages : String → Option Elf) (command : Option String)
    (s₀ : State) :
    (¬ ∀ s, Reached L ramimages command s₀ (fun _ _ => True) (fun _ _ => True) s →
      NullUnmapped L s) ∧
      (Cleared s₀ → ∀ s, Reached L ramimages command s₀ (LoadsOne L) SafeFork s →
        NullMapped L s) := by
  constructor
  · intro hall
    have hun := hall _ (.memory (kernelMemory_eq L s₀))
    obtain ⟨q, htr, -⟩ := (kernelMem_kernelTable L s₀.mem).map 0 (by decide)
    have hnone := hun.kernel 0 (by decide)
    change translate (kernelMem L s₀.mem kernelEntries) (kernelRoot L) 0 = none at hnone
    rw [htr] at hnone
    cases hnone
  · intro hcleared s h
    obtain ⟨d, hinv⟩ := h.inv hcleared
    exact hinv.nullMapped

theorem nullPage_mapped_allocator :
    (¬ ∀ s, Reached smallKernel twoPageImages (some "allocator") resetState (fun _ _ => True)
        (fun _ _ => True) s → NullUnmapped smallKernel s) ∧
      ∃ s, s.Live s.current ∧ NullMapped smallKernel s := by
  obtain ⟨hnever, hmapped⟩ := nullPage_mapped smallKernel twoPageImages
    (some "allocator") resetState
  obtain ⟨s, hboot, hreached⟩ := resetState_reached
  exact ⟨hnever, s, hboot.current, hmapped resetState_cleared s hreached⟩

/-- In the state in which the first process begins to run, both tables map the null page. -/
theorem nullPage_present : ∃ s,
    Reached smallKernel twoPageImages (some "allocator") resetState (fun _ _ => True) (fun _ _ => True) s ∧
      s.Live s.current ∧ translate s.mem (kernelRoot smallKernel) 0 ≠ none ∧
      translate s.mem (s.root s.current) 0 ≠ none ∧ ¬ NullUnmapped smallKernel s := by
  obtain ⟨s, hboot, hreached⟩ := resetState_reached
  have hinv := hboot.good.inv
  have hmapped := hinv.nullMapped
  obtain ⟨q, htr, -⟩ := hinv.kernel.map 0 (by decide)
  obtain ⟨q', htr', -⟩ := hboot.half s.current hboot.current 0 (by decide)
  refine ⟨s, hreached.mono, hboot.current, ?_, ?_, hmapped.not_unmapped⟩
  · rw [htr]
    exact Option.some_ne_none _
  · rw [htr']
    exact Option.some_ne_none _


end CProj.WeensyOS
