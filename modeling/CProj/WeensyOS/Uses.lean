/-
  What the pages of a state are used for.

  A page is used once by the memory viewer, if it is the viewer's page, and by each live process
  once for everything its page table refers to: `uses` lists these references.  The counts of a
  state are `Exact` if they are the numbers of references.
-/
import CProj.WeensyOS.ForkLoop

namespace CProj.WeensyOS

/-! ## Live processes -/

section
variable (s : State)

/-- The root of the page table of a process. -/
def State.root (i : ℕ) : ℕ := (s.ptable i).pagetable / PAGESIZE

/-- The slot `i` holds a process. -/
def State.Live (i : ℕ) : Prop := i < NPROC ∧ (s.ptable i).state ≠ .free

instance (i : ℕ) : Decidable (s.Live i) := inferInstanceAs (Decidable (_ ∧ _))

/-- What the process in the slot `i` refers to. -/
def State.holds (i : ℕ) : List ℕ :=
  if (s.ptable i).state = .free then [] else owned s.mem (s.root i)

/-- The page of the memory viewer, if it has one. -/
def State.viewerPages : List ℕ := if s.viewer = 0 then [] else [s.viewer / PAGESIZE]

/-- Every reference to a page, by the viewer or a live process. -/
def State.uses : List ℕ := s.viewerPages ++ (List.range NPROC).flatMap s.holds

/-- **Exact counts.** The count of every page is the number of references to it; there are none to
    pages that do not exist. -/
def Exact : Prop := ∀ p, s.uses.count p = if p < NPAGES then (s.pages p).toNat else 0

/-- The page tables of the live processes are trees, and no page belongs to two of them. -/
structure TreeShaped : Prop where
  aligned : ∀ i, s.Live i → (s.ptable i).pagetable % PAGESIZE = 0
  shaped : ∀ i, s.Live i → Shaped s.mem (s.root i)
  disjoint : ∀ i j, s.Live i → s.Live j → i ≠ j →
    List.Disjoint (tables s.mem 3 (s.root i)) (tables s.mem 3 (s.root j))

end

variable {L : Layout} {s s' : State} {i j p : ℕ}

theorem TreeShaped.pagetable (h : TreeShaped s) (hi : s.Live i) :
    (s.ptable i).pagetable = s.root i * 4096 := by
  have ha := h.aligned i hi
  simp only [State.root, PAGESIZE] at ha ⊢
  omega

theorem holds_of_live (h : s.Live i) : s.holds i = owned s.mem (s.root i) := if_neg h.2

theorem mem_uses : p ∈ s.uses ↔
    p ∈ s.viewerPages ∨ ∃ i, s.Live i ∧ p ∈ owned s.mem (s.root i) := by
  rw [State.uses, List.mem_append, List.mem_flatMap]
  refine or_congr_right (exists_congr fun i => ?_)
  rw [List.mem_range, State.Live, State.holds]
  by_cases hfree : (s.ptable i).state = .free
  · simp [hfree]
  · simp [hfree]

theorem mem_owned {m : Mem} {r : ℕ} :
    p ∈ owned m r ↔ p ∈ procPages m r ∨ p ∈ tables m 3 r := by
  rw [owned, tables, List.mem_append, List.mem_append, List.mem_singleton, List.mem_cons, or_assoc,
    or_comm (a := p = r)]

theorem Agree.owned {m m' : Mem} {r : ℕ} (h : Agree m m' (WeensyOS.tables m 3 r)) :
    owned m' r = WeensyOS.owned m r := by
  rw [WeensyOS.owned, WeensyOS.owned, h.subtables, procPages_congr fun w _ => h.translate]

/-! ## Exact counts -/

theorem Exact.used (h : Exact s) (hp : p ∈ s.uses) : p < NPAGES ∧ s.pages p ≠ 0 := by
  have hpos := List.count_pos_iff.2 hp
  have hcount := h p
  split_ifs at hcount with hlt
  · refine ⟨hlt, fun h0 => ?_⟩
    have hz : (0 : UInt8).toNat = 0 := rfl
    rw [h0, hz] at hcount
    omega
  · omega

theorem Exact.owned_used (h : Exact s) (hi : s.Live i) (hp : p ∈ owned s.mem (s.root i)) :
    p < NPAGES ∧ s.pages p ≠ 0 := h.used (mem_uses.2 (Or.inr ⟨i, hi, hp⟩))

/-- Everything that a live process refers to is in use. -/
def Covered (s : State) : Prop := ∀ i, s.Live i → ∀ p ∈ owned s.mem (s.root i), s.pages p ≠ 0

theorem Exact.covered (h : Exact s) : Covered s := fun _ hi _ hp => (h.owned_used hi hp).2

theorem Covered.tables (h : Covered s) (hi : s.Live i) : TablesUsed s (s.root i) := fun p hp =>
  h i hi p (mem_owned.2 (Or.inr hp))

/-- Below `PROC_START_ADDR` the user has access to the console only, and may write to it. -/
def LowConsole (m : Mem) (r : ℕ) : Prop :=
  ∀ w < 256, ∀ n q, translate m r w = some (n, q) → IsUser q →
    w = CONSOLE_PAGE ∧ n = CONSOLE_PAGE ∧ IsWritable q

theorem LowConsole.copied {m : Mem} {r w : ℕ} (h : LowConsole m r) (hw : w < 256) :
    copied m r w = false ∧ shared m r w = [] := by
  constructor
  · rw [← Bool.not_eq_true]
    intro hc
    obtain ⟨n, q, htr, huser, hne, -⟩ := copied_iff.1 hc
    exact hne (h w hw n q htr huser).1
  · refine List.eq_nil_iff_forall_not_mem.2 fun p hp => ?_
    obtain ⟨q, htr, huser, hnw⟩ := mem_shared.1 hp
    exact hnw (h w hw p q htr huser).2.2

/-- A process with exact counts can be forked. -/
theorem Exact.parent (h : Exact s) (ht : TreeShaped s) (hi : s.Live i)
    (hlow : LowConsole s.mem (s.root i)) : Parent s (s.root i) :=
  ⟨ht.shaped i hi, fun _ hp => (h.owned_used hi (mem_owned.2 (Or.inr hp))).2,
    fun _ hw => hlow.copied hw, fun _ hp => (h.owned_used hi (mem_owned.2 (Or.inl hp))).2⟩

/-! ## One process changes -/

theorem holds_congr (hp : s'.ptable i = s.ptable i)
    (h : s.Live i → Agree s.mem s'.mem (tables s.mem 3 (s.root i))) (hi : i < NPROC) :
    s'.holds i = s.holds i := by
  have hroot : s'.root i = s.root i := by rw [State.root, State.root, hp]
  rw [State.holds, State.holds, hroot, hp]
  split_ifs with hfree
  · rfl
  · exact (h ⟨hi, hfree⟩).owned

/-- The references when one process changes. -/
theorem uses_count {t : State} (hj : j < NPROC) (hv : t.viewer = s.viewer)
    (hne : ∀ i < NPROC, i ≠ j → t.holds i = s.holds i) (p : ℕ) :
    t.uses.count p + (s.holds j).count p = s.uses.count p + (t.holds j).count p := by
  have hperm := flatMap_exchange_perm (f := s.holds) (g := t.holds) List.nodup_range
    (List.mem_range.2 hj) (fun i hi => hne i (List.mem_range.1 hi))
  have hcount := hperm.count_eq p
  have hview : t.viewerPages = s.viewerPages := by rw [State.viewerPages, State.viewerPages, hv]
  rw [List.count_append, List.count_append] at hcount
  rw [State.uses, State.uses, List.count_append, List.count_append, hview]
  omega

end CProj.WeensyOS
