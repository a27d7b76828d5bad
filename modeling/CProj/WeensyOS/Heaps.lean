/-
  Processes that keep a heap.

  A program is `Tidy` if it allocates its heap page by page, from `base` on, and stores to pages of the
  heap and the console only; `known` is what it remembers of the first word of a page.  `HeapMapped`
  says that a page table maps the heap of a process; it stays so while the address space does not
  change (`SameSpace`), when the heap grows, when the process stores to it, and in a copy.
-/
import CProj.WeensyOS.Liveness
import CProj.WeensyOS.ProcessSetup
import CProj.WeensyOS.Processes

namespace CProj.WeensyOS

variable {σ : Type} {L : Layout} {d : ℕ → ℕ} {s s' s₁ s₂ : State} {i j c : ℕ}

/-! ## Address spaces that do not change -/

/-- The process in the slot `i` finds the same pages in both states. -/
structure SameSpace (s s' : State) (i : ℕ) : Prop where
  translate : ∀ v, translate s'.mem (s'.root i) v = translate s.mem (s.root i) v
  pages : ∀ v n q, Canonical v → WeensyOS.translate s.mem (s.root i) v = some (n, q) → IsUser q →
    IsWritable q → n ≠ CONSOLE_PAGE → s'.mem n = s.mem n

theorem SameSpace.refl : SameSpace s s i := ⟨fun _ => rfl, fun _ _ _ _ _ _ _ _ => rfl⟩

theorem SameSpace.trans (h : SameSpace s s₁ i) (h' : SameSpace s₁ s' i) : SameSpace s s' i := by
  refine ⟨fun v => (h'.translate v).trans (h.translate v), fun v n q hv htr huser hwr hcon => ?_⟩
  rw [h'.pages v n q hv ((h.translate v).trans htr) huser hwr hcon]
  exact h.pages v n q hv htr huser hwr hcon

theorem Untouched.same (h : Untouched s s' i) : SameSpace s s' i :=
  ⟨h.translate, fun v n q hv htr huser _ hcon => h.pages v n q hv htr huser hcon⟩

theorem same_saveRegs {regs : Regs} : SameSpace s (saveRegs s regs) i :=
  ⟨fun v => by rw [saveRegs_root]; rfl, fun _ _ _ _ _ _ _ _ => rfl⟩

theorem same_schedule (hsched : schedule L s = .ok s') : SameSpace s s' i := by
  obtain ⟨hptable, hmem⟩ := schedule_keeps hsched
  refine ⟨fun v => ?_, fun _ n _ _ _ _ _ _ => by rw [hmem]⟩
  rw [State.root, hptable, hmem]
  rfl

/-- What spares the free slot 0 spares every process. -/
theorem Inv.same (h : Inv L d s) (hs : Spares L 0 s s') (hi : s.Live i) : SameSpace s s' i :=
  (h.untouched hs hi (h.ne_zero hi)).same

theorem Good.same_entered {regs : Regs} (h : Good L d s)
    (hshow : memshow L (saveRegs s regs) = .ok s₁) (hi : s.Live i) : SameSpace s s₁ i :=
  same_saveRegs.trans ((h.inv.saveRegs regs).same (spares_memshow hshow) (saveRegs_live.2 hi))

theorem Inv.same_fork {k : ℤ} (h : Inv L d s) (hlive : s.Live s.current) (hsafe : ForkSafe s)
    (hres : syscallFork L s = .ok (k, s')) (hi : s.Live i) : SameSpace s s' i := by
  obtain ⟨-, -, -, hptable, hmem⟩ := h.fork hlive hsafe hres
  exact h.same ⟨fun j hj _ => hptable j hj, fun p hp => hmem p fun hfree => hp (.inl hfree)⟩ hi

/-- `syscall_page_alloc` fails and changes nothing, or maps the page. -/
theorem Inv.pageAlloc_space {v : ℕ} {k : ℤ} (h : Inv L d s) (hlive : s.Live s.current)
    (hres : syscallPageAlloc L s (v * PAGESIZE) = .ok (k, s')) :
    (∀ w n q, Canonical w → translate s.mem (s.root s.current) w = some (n, q) → IsUser q →
      IsWritable q → n ≠ CONSOLE_PAGE → s'.mem n = s.mem n) ∧
    (k = -1 ∧ (∀ w, translate s'.mem (s'.root s.current) w = translate s.mem (s.root s.current) w) ∨
      k = 0 ∧ (∀ w, Canonical w → w ≠ v →
        translate s'.mem (s'.root s.current) w = translate s.mem (s.root s.current) w) ∧
      ∃ n q, translate s'.mem (s'.root s.current) v = some (n, q) ∧ pwu q = 7 ∧ n ≠ CONSOLE_PAGE ∧
        ∀ i, s'.mem n i = 0) := by
  obtain ⟨-, hrest, hmem⟩ := h.pageAlloc hlive hres
  have hroot : s'.root s.current = s.root s.current := by
    rw [hrest]
    rfl
  refine ⟨fun w n q hw htr huser hwr hcon => hmem n (h.not_table hlive hlive htr hw huser hwr)
    fun hfree => ?_, ?_⟩
  · exact h.covered _ hlive n ((h.procs _ hlive).mem_owned hw htr huser hcon) hfree.2
  have hspec := syscallPageAlloc_spec (L := L) (v * PAGESIZE) (h.treeShaped.pagetable hlive)
    (h.procs _ hlive).shaped (h.covered.tables hlive)
  rw [hres] at hspec
  rw [hroot]
  generalize hok : (Except.ok (k, s') : Except Fault (ℤ × State)) = res at hspec
  have hdiv : v * PAGESIZE / 4096 = v := page_div v
  cases hspec with
  | refused _ =>
    cases hok
    exact .inl ⟨rfl, fun _ => rfl⟩
  | fault _ _ => cases hok
  | stuck _ _ _ _ htr =>
    cases hok
    exact .inl ⟨rfl, htr⟩
  | @done n q new _ _ _ _ _ hx _ hzero hhere hq hother =>
    cases hok
    rw [hdiv] at hhere hother
    exact .inr ⟨rfl, hother, n, q, hhere, hq, (hx.fresh n List.mem_cons_self).2.ne_console, hzero⟩

/-- Two pages of a process have two frames. -/
theorem ProcOk.injective {m : Mem} {r v v' n n' q q' : ℕ} (h : ProcOk L m r) (hlo : 256 ≤ v)
    (hhi : v < 768) (hlo' : 256 ≤ v') (hhi' : v' < 768) (htr : translate m r v = some (n, q))
    (huser : IsUser q) (htr' : translate m r v' = some (n', q')) (huser' : IsUser q') (hne : v ≠ v') :
    n ≠ n' := by
  have hnodup : (procPages m r).Nodup := by
    have hsingle := h.single
    rw [owned, List.append_assoc] at hsingle
    exact (List.nodup_append.1 hsingle).1
  have hin : n ∈ (userPage m r v).toList := by
    rw [userPage_eq_some.2 ⟨q, htr, huser⟩]
    exact List.mem_singleton_self n
  have hin' : n' ∈ (userPage m r v').toList := by
    rw [userPage_eq_some.2 ⟨q', htr', huser'⟩]
    exact List.mem_singleton_self n'
  rintro rfl
  exact disjoint_of_nodup_flatMap hnodup (List.mem_range'_1.2 ⟨hlo, hhi⟩)
    (List.mem_range'_1.2 ⟨hlo', hhi'⟩) hne hin hin'

/-! ## Programs with a heap -/

/-- How a program uses memory: the pages of its heap, and what it knows of their first words. -/
structure Heap (σ : Type) where
  ok : σ → Prop
  base : σ → ℕ
  top : σ → ℕ
  known : σ → ℕ → ℕ → Prop

/-- The local state `l'` has the heap of `l`, or a part of it. -/
structure Follows (H : Heap σ) (l l' : σ) : Prop where
  ok : H.ok l'
  top : H.top l ≤ H.top l'
  within : ∀ v, H.base l' ≤ v → v < H.top l' → H.base l ≤ v ∧ v < H.top l
  known : ∀ v w, H.base l' ≤ v → v < H.top l' → H.known l v w → H.known l' v w

/-- A program that keeps to its heap. -/
structure Tidy (P : Program σ) (H : Heap σ) : Prop where
  bounds : ∀ l, H.ok l → 256 ≤ H.base l ∧ H.base l ≤ H.top l ∧ H.top l ≤ STACK_PAGE
  /-- a call, but for allocations and exits -/
  call : ∀ l, H.ok l → P.request l = .getpid ∨ P.request l = .yield ∨ P.request l = .fork →
    ∀ r, Follows H l (P.resume l r)
  alloc : ∀ l addr, H.ok l → P.request l = .pageAlloc addr →
    addr = H.top l * PAGESIZE ∧ H.top l < STACK_PAGE ∧ Follows H l (P.resume l (-1)) ∧
      H.ok (P.resume l 0) ∧ H.base (P.resume l 0) = H.base l ∧ H.top (P.resume l 0) = H.top l + 1 ∧
      H.known (P.resume l 0) (H.top l) 0 ∧
      ∀ v < H.top l, ∀ w, H.known l v w → H.known (P.resume l 0) v w
  store : ∀ l va n w, H.ok l → P.request l = .store va n w →
    (va / PAGESIZE = CONSOLE_PAGE ∧ Follows H l (P.resume l 0)) ∨
      H.base l ≤ va / PAGESIZE ∧ va / PAGESIZE < H.top l ∧ H.ok (P.resume l 0) ∧
        H.base (P.resume l 0) = H.base l ∧ H.top (P.resume l 0) = H.top l ∧ ∀ v old, H.known l v old →
          H.known (P.resume l 0) v
            (if v = va / PAGESIZE ∧ va % PAGESIZE / 8 = 0 then putBytes old (va % 8) n w else old)
  load : ∀ l va n, H.ok l → P.request l = .load va n →
    (va / PAGESIZE = CONSOLE_PAGE ∨ H.base l ≤ va / PAGESIZE ∧ va / PAGESIZE < H.top l) ∧
      ∀ r, Follows H l (P.resume l r)

variable {P : Program σ} {H : Heap σ} {l l' : σ}

theorem Follows.refl (h : H.ok l) : Follows H l l :=
  ⟨h, le_rfl, fun _ hlo hhi => ⟨hlo, hhi⟩, fun _ _ _ _ => id⟩

theorem Follows.trans {l'' : σ} (h : Follows H l l') (h' : Follows H l' l'') : Follows H l l'' := by
  refine ⟨h'.ok, h.top.trans h'.top, fun v hlo hhi => ?_, fun v w hlo hhi hw => ?_⟩
  · obtain ⟨hlo', hhi'⟩ := h'.within v hlo hhi
    exact h.within v hlo' hhi'
  · obtain ⟨hlo', hhi'⟩ := h'.within v hlo hhi
    exact h'.known v w hlo hhi (h.known v w hlo' hhi' hw)

/-- The table with the root `r` maps the heap of a process, and nothing between it and the stack. -/
structure HeapMapped (H : Heap σ) (l : σ) (m : Mem) (r : ℕ) : Prop where
  mapped : ∀ v, H.base l ≤ v → v < H.top l →
    ∃ n q, translate m r v = some (n, q) ∧ pwu q = 7 ∧ n ≠ CONSOLE_PAGE ∧ H.known l v (m n 0)
  unmapped : ∀ v, H.top l ≤ v → v < STACK_PAGE → translate m r v = none

theorem user_of_seven {q : ℕ} (h : pwu q = 7) : IsUser q ∧ IsWritable q := by
  rw [← isUser_pwu, ← isWritable_pwu, h]
  decide

theorem HeapMapped.follows {m : Mem} {r : ℕ} (h : HeapMapped H l m r) (hf : Follows H l l') :
    HeapMapped H l' m r := by
  refine ⟨fun v hlo hhi => ?_, fun v hlo hhi => h.unmapped v (hf.top.trans hlo) hhi⟩
  obtain ⟨hlo', hhi'⟩ := hf.within v hlo hhi
  obtain ⟨n, q, htr, hq, hcon, hknown⟩ := h.mapped v hlo' hhi'
  exact ⟨n, q, htr, hq, hcon, hf.known v _ hlo hhi hknown⟩

theorem HeapMapped.same (h : HeapMapped H l s.mem (s.root i)) (htop : H.top l ≤ STACK_PAGE)
    (hs : SameSpace s s' i) : HeapMapped H l s'.mem (s'.root i) := by
  refine ⟨fun v hlo hhi => ?_, fun v hlo hhi => (hs.translate v).trans (h.unmapped v hlo hhi)⟩
  obtain ⟨n, q, htr, hq, hcon, hknown⟩ := h.mapped v hlo hhi
  have hv : Canonical v := canonical_of_lt (by rw [STACK_PAGE] at htop; omega)
  refine ⟨n, q, (hs.translate v).trans htr, hq, hcon, ?_⟩
  rw [hs.pages v n q hv htr (user_of_seven hq).1 (user_of_seven hq).2 hcon]
  exact hknown

/-- The heap with one page more. -/
theorem HeapMapped.grow {m m' : Mem} {r r' : ℕ} (h : HeapMapped H l m r) (htop : H.top l < STACK_PAGE)
    (hbase' : H.base l' = H.base l) (htop' : H.top l' = H.top l + 1) (hnew : H.known l' (H.top l) 0)
    (hold : ∀ v < H.top l, ∀ w, H.known l v w → H.known l' v w)
    (hother : ∀ w, Canonical w → w ≠ H.top l → translate m' r' w = translate m r w)
    (hpages : ∀ w n q, Canonical w → translate m r w = some (n, q) → IsUser q → IsWritable q →
      n ≠ CONSOLE_PAGE → m' n = m n)
    (hhere : ∃ n q, translate m' r' (H.top l) = some (n, q) ∧ pwu q = 7 ∧ n ≠ CONSOLE_PAGE ∧
      ∀ i, m' n i = 0) : HeapMapped H l' m' r' := by
  rw [STACK_PAGE] at htop
  refine ⟨fun v hlo hhi => ?_, fun v hlo hhi => ?_⟩
  · rw [hbase'] at hlo
    rw [htop'] at hhi
    by_cases hv : v = H.top l
    · obtain ⟨n, q, htr, hq, hcon, hzero⟩ := hhere
      refine ⟨n, q, hv ▸ htr, hq, hcon, ?_⟩
      rw [hv, hzero]
      exact hnew
    · obtain ⟨n, q, htr, hq, hcon, hknown⟩ := h.mapped v hlo (by omega)
      have hcanon : Canonical v := canonical_of_lt (by omega)
      refine ⟨n, q, (hother v hcanon hv).trans htr, hq, hcon, ?_⟩
      rw [hpages v n q hcanon htr (user_of_seven hq).1 (user_of_seven hq).2 hcon]
      exact hold v (by omega) _ hknown
  · rw [htop'] at hlo
    rw [hother v (canonical_of_lt (by rw [STACK_PAGE] at hhi; omega)) (by omega)]
    exact h.unmapped v (by omega) hhi

/-- The heap of a copy. -/
theorem HeapMapped.copied (hb : 256 ≤ H.base l ∧ H.base l ≤ H.top l ∧ H.top l ≤ STACK_PAGE)
    (h : HeapMapped H l s.mem (s.root s.current)) (hdup : Duplicated L s s' i) :
    HeapMapped H l s'.mem (s'.root i) := by
  have hstack : STACK_PAGE = 767 := rfl
  refine ⟨fun v hlo hhi => ?_, fun v hlo hhi => hdup.absent v (by omega) (h.unmapped v hlo hhi)⟩
  obtain ⟨n, q, htr, hq, hcon, hknown⟩ := h.mapped v hlo hhi
  obtain ⟨n', q', htr', hq', hcopy⟩ := hdup.present v (by omega) n q htr
  obtain ⟨huser, hwr⟩ := user_of_seven hq
  have hv : v ≠ CONSOLE_PAGE := fun hv => by
    have hc : CONSOLE_PAGE < 256 := by decide
    omega
  rw [if_pos ⟨huser, hwr, hv⟩] at hcopy
  obtain ⟨halloc, -, hmem⟩ := hcopy
  refine ⟨n', q', htr', hq'.trans hq, halloc.ne_console, ?_⟩
  rw [hmem]
  exact hknown

/-- The heap after a store to one of its pages. -/
theorem HeapMapped.stored {m m' : Mem} {r r' p q v k word : ℕ} (h : HeapMapped H l m r)
    (hok : ProcOk L m r) (hb : 256 ≤ H.base l ∧ H.base l ≤ H.top l ∧ H.top l ≤ STACK_PAGE)
    (hbase : H.base l' = H.base l) (htop : H.top l' = H.top l) (hlo : H.base l ≤ v) (hhi : v < H.top l)
    (htr : translate m r v = some (p, q)) (huser : IsUser q)
    (htranslate : ∀ u, translate m' r' u = translate m r u) (hm : m' = m.set p k word)
    (hkept : ∀ u old, H.known l u old → (u = v → old = m p 0) →
      H.known l' u (if u = v ∧ k = 0 then word else old)) : HeapMapped H l' m' r' := by
  have hstack : STACK_PAGE = 767 := rfl
  refine ⟨fun u hu hu' => ?_, fun u hu hu' => (htranslate u).trans (h.unmapped u (htop ▸ hu) hu')⟩
  rw [hbase] at hu
  rw [htop] at hu'
  obtain ⟨p', q', htr', hq', hcon', hknown⟩ := h.mapped u hu hu'
  refine ⟨p', q', (htranslate u).trans htr', hq', hcon', ?_⟩
  rw [hm]
  by_cases huv : u = v
  · subst huv
    cases htr.symm.trans htr'
    have hkept := hkept u _ hknown fun _ => rfl
    by_cases hk : k = 0
    · subst hk
      rw [set_self]
      rwa [if_pos ⟨rfl, rfl⟩] at hkept
    · rw [set_of_ne fun heq => hk heq.2.symm]
      rwa [if_neg fun heq => hk heq.2] at hkept
  · have hne := hok.injective (by omega) (by omega) (by omega) (by omega) htr huser htr'
      (user_of_seven hq').1 (Ne.symm huv)
    have hkept := hkept u _ hknown fun heq => absurd heq huv
    rw [set_of_ne fun heq => hne heq.1.symm]
    rwa [if_neg fun heq => huv heq.1] at hkept

end CProj.WeensyOS
