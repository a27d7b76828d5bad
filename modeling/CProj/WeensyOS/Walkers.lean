/-
  Several iterators at work on one page table.

  Each of them is made by the constructor, moved about, and used for `try_map`, in any order.  An
  iterator that has just been moved is the same as a new one at its address (`walkers_agree`), and
  reads what the processor finds there (`archWalk`).
-/
import CProj.WeensyOS.Mapping

namespace CProj.WeensyOS

/-- An operation on an iterator. -/
inductive WalkOp where
  | create (va : UInt64)
  | find (va : UInt64)
  | advance (delta : UInt64)
  | retreat (delta : UInt64)
  | next
  | nextRange
  | tryMap (pa perm : UInt64)
  deriving DecidableEq, Repr

/-- The operation moves an iterator. -/
def WalkOp.Moves : WalkOp → Prop
  | .find _ | .advance _ | .retreat _ | .next | .nextRange => True
  | .create _ | .tryMap _ _ => False

/-- The state of the kernel and the iterators over one page table, by name. -/
structure Walkers where
  state : State
  its : ℕ → Option Vmiter

section
variable (L : Layout) (r : ℕ)

/-- An operation on the iterator `it`, in the state `s`. -/
def WalkOp.apply (s : State) (it : Vmiter) : WalkOp → Except Fault (Vmiter × State)
  | .create va => do return (← Vmiter.create s.mem (r * PAGESIZE) va.toNat, s)
  | .find va => do return (← it.find s.mem va.toNat, s)
  | .advance delta => do return (← it.advance s.mem delta.toNat, s)
  | .retreat delta => do return (← it.retreat s.mem delta.toNat, s)
  | .next => do return (← it.next s.mem, s)
  | .nextRange => do return (← it.nextRange s.mem, s)
  | .tryMap pa perm => do
    let (_, it, s) ← it.tryMapIt L s pa.toNat perm.toNat
    return (it, s)

/-- An operation on the iterator with the name `x.1`; before it is made, there is none. -/
def Walkers.step (w : Walkers) (x : ℕ × WalkOp) : Except Fault Walkers :=
  match w.its x.1, x.2 with
  | none, .create va => do
    let it ← Vmiter.create w.state.mem (r * PAGESIZE) va.toNat
    return { w with its := Function.update w.its x.1 (some it) }
  | none, _ => .ok w
  | some it, op => do
    let (it, s) ← op.apply L r w.state it
    return ⟨s, Function.update w.its x.1 (some it)⟩

end

variable {L : Layout} {r j : ℕ} {s s' : State} {w w' : Walkers} {it it' : Vmiter} {op : WalkOp} {m : Mem}

/-! ## The processor -/

/-- What the processor finds for the address `va`, from the table `t` of level `l` on: the physical
    address, and the permissions that all entries on the way grant. -/
def archWalk (m : Mem) (va : ℕ) : ℕ → ℕ → ℕ → Option (ℕ × ℕ)
  | 0, t, perm =>
    let e := m t (va / PAGESIZE % 512)
    if e % 2 = 0 then none else some (pageOf e * PAGESIZE + va % PAGESIZE, perm &&& e)
  | l + 1, t, perm =>
    let e := m t (va / regionSize (l + 1) % 512)
    if e % 2 = 0 then none
    -- `PTE_PS`: the bits of the address above the size of the page
    else if e / 128 % 2 = 1 then
      some (pageOf e * PAGESIZE / regionSize (l + 1) * regionSize (l + 1) + va % regionSize (l + 1),
        perm &&& e)
    else archWalk m va l (pageOf e) (perm &&& e)

/-- The translation of an address by the processor. -/
def archTranslate (m : Mem) (r va : ℕ) : Option (ℕ × ℕ) :=
  if vaIsCanonical va then archWalk m va 3 r initialPerm else none

/-- The iterator reads what the processor finds, at the entry where its walk ends. -/
structure ReadsArch (m : Mem) (r : ℕ) (it : Vmiter) : Prop where
  entry : if vaIsCanonical it.va then
      it.level = (stop m r (it.va / PAGESIZE)).level ∧
        it.pep = .entry (stop m r (it.va / PAGESIZE)).page (stop m r (it.va / PAGESIZE)).idx
    else it.level = 3 ∧ it.pep = .zeroPe
  reads : (it.pa m, it.permissions m) = (archTranslate m r it.va).getD (NEG_ONE, 0)

theorem region_ix (va l : ℕ) : va / regionSize l % 512 = ix (va / 4096) l := by
  rw [← pageindex_region, pageindex_eq]

theorem archWalk_eq {va : ℕ} : ∀ {l t perm : ℕ}, archWalk m va l t perm =
    let st := walk m (va / 4096) l t perm
    let e := m st.page st.idx
    if e % 2 = 1 then
      some (pageOf e * 4096 / regionSize st.level * regionSize st.level + va % regionSize st.level,
        st.perm &&& e)
    else none
  | 0, t, perm => by
    have hsize : regionSize 0 = 4096 := rfl
    have hix : va / PAGESIZE % 512 = ix (va / 4096) 0 := by
      rw [ix, pow_zero, Nat.div_one]
      rfl
    rw [archWalk, hix, walk]
    simp only [hsize]
    by_cases he : m t (ix (va / 4096) 0) % 2 = 0
    · rw [if_pos he, if_neg (by omega)]
    · rw [if_neg he, if_pos (by omega), Nat.mul_div_cancel _ (by decide)]
      rfl
  | l + 1, t, perm => by
    rw [archWalk, region_ix]
    by_cases he : m t (ix (va / 4096) (l + 1)) % 2 = 0
    · have hlink : ¬ IsLink (m t (ix (va / 4096) (l + 1))) := by
        rw [isLink_iff]
        omega
      simp only [he, if_true]
      rw [walk_not_link hlink, if_neg (by simp only; omega)]
    · by_cases hps : m t (ix (va / 4096) (l + 1)) / 128 % 2 = 1
      · have hlink : ¬ IsLink (m t (ix (va / 4096) (l + 1))) := by
          rw [isLink_iff]
          omega
        simp only [he, hps, if_true, if_false]
        rw [walk_not_link hlink, if_pos (by simp only; omega)]
        rfl
      · have hlink : IsLink (m t (ix (va / 4096) (l + 1))) := by
          rw [isLink_iff]
          omega
        simp only [he, hps, if_false]
        rw [walk_link hlink, archWalk_eq]

/-- The frame of a page that is aligned. -/
theorem frame_eq {l e v : ℕ} (h : 0 < l → pageOf e / 2 * 2 % 512 ^ l = 0) :
    frame l e v = pageOf e / 512 ^ l * 512 ^ l + v % 512 ^ l := by
  rw [frame]
  split_ifs with hl
  · rw [hl, pow_zero, Nat.div_one, Nat.mul_one, Nat.mod_one, Nat.add_zero]
  · obtain ⟨k, rfl⟩ : ∃ k, l = k + 1 := ⟨l - 1, by omega⟩
    have hdvd := h (Nat.succ_pos k)
    have heven : 512 ^ (k + 1) = 2 * (256 * 512 ^ k) := by
      rw [pow_succ]
      ring
    have hdiv : pageOf e / 512 ^ (k + 1) = pageOf e / 2 / (256 * 512 ^ k) := by
      rw [heven, Nat.div_div_eq_div_mul]
    have hmod : pageOf e / 2 % (256 * 512 ^ k) = 0 := by
      rw [heven, Nat.mul_comm (pageOf e / 2), Nat.mul_mod_mul_left] at hdvd
      omega
    have hmul := Nat.div_add_mod (pageOf e / 2) (256 * 512 ^ k)
    rw [hmod, Nat.add_zero] at hmul
    have hbase : pageOf e / 512 ^ (k + 1) * 512 ^ (k + 1) = pageOf e / 2 * 2 := by
      rw [hdiv, heven, Nat.mul_left_comm, Nat.mul_comm (pageOf e / 2 / _), hmul, Nat.mul_comm]
    rw [hbase]

/-- The processor's translation of an address, from that of its page. -/
theorem archTranslate_eq {va : ℕ} (hlarge : LargeAligned m r) (hva : vaIsCanonical va = true) :
    archTranslate m r va =
      (translate m r (va / 4096)).map fun x => (x.1 * 4096 + va % 4096, x.2) := by
  have hlarge' := hlarge (va / 4096)
  have hstop : walk m (va / 4096) 3 r initialPerm = stop m r (va / 4096) := rfl
  rw [archTranslate, if_pos hva, archWalk_eq, translate, hstop]
  generalize stop m r (va / 4096) = st at hlarge' ⊢
  simp only
  generalize m st.page st.idx = e at hlarge' ⊢
  by_cases he : e % 2 = 1
  · have hsize : regionSize st.level = 512 ^ st.level * 4096 := by
      rw [regionSize, pow_add, Nat.mul_comm _ 9, pow_mul, Nat.mul_comm]
      rfl
    have hoffset : va % regionSize st.level = va / 4096 % 512 ^ st.level * 4096 + va % 4096 :=
      offset_eq va st.level
    rw [if_pos he, if_pos he, Option.map_some, frame_eq fun hl => hlarge' hl he, hoffset, hsize,
      Nat.mul_div_mul_right _ _ (by decide), Nat.and_comm]
    congr 2
    ring
  · rw [if_neg he, if_neg he, Option.map_none]

/-- A new iterator reads what the processor finds. -/
theorem create_readsArch {va : ℕ} (hlarge : LargeAligned m r)
    (h : Vmiter.create m (r * 4096) va = .ok it) : ReadsArch m r it := by
  cases hva : vaIsCanonical va with
  | false =>
    rw [create_not_canonical hva] at h
    cases h
    have hva' : ¬ vaIsCanonical (vmiterNowhere r va).va = true := Bool.eq_false_iff.1 hva
    constructor
    · rw [if_neg hva']
      exact ⟨rfl, rfl⟩
    · have hload : (vmiterNowhere r va).pep.load m &&& PTE_P = 0 := Nat.zero_and _
      rw [archTranslate, if_neg hva', Vmiter.pa, Vmiter.permissions, if_neg fun hne => hne hload,
        if_neg fun hne => hne hload]
      rfl
  | true =>
    rw [create_canonical hva] at h
    split_ifs at h
    cases h
    have hva' : vaIsCanonical (vmiterAt m r va).va = true := hva
    constructor
    · rw [if_pos hva']
      exact ⟨rfl, rfl⟩
    · change _ = (archTranslate m r va).getD _
      rw [archTranslate_eq hlarge hva, vmiterAt_permissions]
      cases htr : translate m r (va / 4096) with
      | none =>
        rw [vmiterAt_pa_none htr]
        rfl
      | some x =>
        obtain ⟨n, q⟩ := x
        rw [vmiterAt_pa htr]
        rfl

/-! ## Operations -/

/-- An iterator that stands where the walk for its address ends. -/
theorem Valid.eq_vmiterAt (h : Valid m r it) (hva : vaIsCanonical it.va = true)
    (hend : it.level = 0 ∨ ¬ IsLink (it.pep.load m)) : it = vmiterAt m r it.va := by
  obtain ⟨pt, pep, level, perm, va⟩ := it
  obtain ⟨rfl, -, hpath⟩ := h
  simp only at hva hend hpath ⊢
  rcases hpath with ⟨-, p, rfl, honPath⟩ | ⟨hno, -⟩
  swap
  · rw [hno] at hva
    cases hva
  have hstop : stop m r (va / 4096) = ⟨level, p, ix (va / 4096) level, perm⟩ := by
    rw [stop, honPath.walk]
    cases level with
    | zero => rfl
    | succ l =>
      refine walk_not_link ?_
      rw [← pageindex_eq]
      exact hend.resolve_left (Nat.succ_ne_zero l)
  rw [vmiterAt, hstop, pageindex_eq]

/-- `try_map` from where no walk leads changes nothing. -/
theorem tryMapIt_nowhere {va pa perm : ℕ} {k : ℤ}
    (hres : (vmiterNowhere r va).tryMapIt L s pa perm = .ok (k, it', s')) :
    it' = vmiterNowhere r va ∧ s' = s := by
  rw [Vmiter.tryMapIt] at hres
  obtain ⟨-, -, hres⟩ := bind_eq_ok.1 hres
  obtain ⟨⟨ok, it₁, t⟩, hloop, hres⟩ := bind_eq_ok.1 hres
  have hloop' : it₁ = vmiterNowhere r va ∧ t = s := by
    change Vmiter.tryMapLoop L perm 3 _ s = _ at hloop
    rw [Vmiter.tryMapLoop] at hloop
    by_cases hp : (vmiterNowhere r va).level > 0 ∧ perm ≠ 0
    · rw [if_pos hp] at hloop
      obtain ⟨-, -, hloop⟩ := bind_eq_ok.1 hloop
      cases hfree : firstFree L s.pages with
      | none =>
        rw [kalloc_none hfree] at hloop
        cases hloop
        exact ⟨rfl, rfl⟩
      | some n =>
        have hpos := (firstFree_some hfree).1.pos
        have hne : ¬ n * 4096 = 0 := by omega
        have hpep : (vmiterNowhere r va).pep = .zeroPe := rfl
        simp only [kalloc_some hfree, hne, hpep, if_true, if_false] at hloop
        cases hloop
    · rw [if_neg hp] at hloop
      cases hloop
      exact ⟨rfl, rfl⟩
  obtain ⟨rfl, rfl⟩ := hloop'
  cases ok with
  | false =>
    cases hres
    exact ⟨rfl, rfl⟩
  | true =>
    have hl : ¬ (vmiterNowhere r va).level = 0 := Nat.succ_ne_zero 2
    simp only [if_true, hl, if_false] at hres
    cases hres
    exact ⟨rfl, rfl⟩

/-- `try_map` above an entry that links a table does nothing. -/
theorem tryMapIt_above {pa perm : ℕ} {k : ℤ} (hl : it.level ≠ 0)
    (hlink : IsLink (it.pep.load s.mem))
    (hres : it.tryMapIt L s pa perm = .ok (k, it', s')) : it' = it ∧ s' = s := by
  obtain ⟨l, hl'⟩ : ∃ l, it.level = l + 1 := ⟨it.level - 1, by omega⟩
  have hodd : it.pep.load s.mem % 2 = 1 := ((isLink_iff _).1 hlink).1
  rw [Vmiter.tryMapIt] at hres
  obtain ⟨-, -, hres⟩ := bind_eq_ok.1 hres
  obtain ⟨⟨ok, it₁, t⟩, hloop, hres⟩ := bind_eq_ok.1 hres
  rw [hl', Vmiter.tryMapLoop] at hloop
  by_cases hp : it.level > 0 ∧ perm ≠ 0
  · rw [if_pos hp, assert_error (by rw [and_one]; omega)] at hloop
    cases hloop
  · rw [if_neg hp] at hloop
    cases hloop
    simp only [if_true, hl, if_false] at hres
    cases hres
    exact ⟨rfl, rfl⟩

/-- What iterators rely on: the table is a tree outside the free pages, large pages are aligned, and
    the iterators are valid. -/
structure WalkInv (L : Layout) (r : ℕ) (its : ℕ → Option Vmiter) (s : State) : Prop where
  tree : (tables s.mem 3 r).Nodup
  free : FreeOutside L s r
  large : LargeAligned s.mem r
  valid : ∀ j it, its j = some it → Valid s.mem r it

section
variable {its : ℕ → Option Vmiter}

theorem WalkInv.update (h : WalkInv L r its s) (hit : Valid s.mem r it) :
    WalkInv L r (Function.update its j (some it)) s := by
  refine ⟨h.tree, h.free, h.large, fun i it₁ hi => ?_⟩
  rw [Function.update_apply] at hi
  split_ifs at hi with hij
  · cases hi
    exact hit
  · exact h.valid i it₁ hi

/-- The invariant is kept by every link that is stored. -/
theorem hangInv_walkInv (v : ℕ) : HangInv L r v (WalkInv L r its) := by
  intro s n k h hfree hlink
  obtain ⟨hn, h0⟩ := firstFree_some hfree
  have hg : Hung L r s (s.link r v n) [n] := hung_link hlink h0 hn
  exact ⟨hg.tree, hg.freeOutside h.free, hlink.largeAligned h.large,
    fun j it hj => (h.valid j it hj).linked hlink⟩

/-- The invariant is kept by an entry of level 0 that is stored. -/
theorem WalkInv.put {v e : ℕ} (h : WalkInv L r its s) (hl : (stop s.mem r v).level = 0) :
    WalkInv L r its (s.put r v e) := by
  refine ⟨?_, fun p hp h0 hmem => h.free p hp h0 ?_, largeAligned_set h.tree hl h.large e,
    fun j it hj => (h.valid j it hj).set h.tree⟩
  · change (tables (s.mem.set _ _ _) 3 r).Nodup
    rw [tables_set h.tree hl]
    exact h.tree
  · change p ∈ tables (s.mem.set _ _ _) 3 r at hmem
    rwa [tables_set h.tree hl] at hmem

/-- **`try_map`** through one of the iterators keeps all of them valid. -/
theorem WalkInv.tryMapIt {pa perm : ℕ} {k : ℤ} (h : WalkInv L r its s) (hit : Valid s.mem r it)
    (hres : it.tryMapIt L s pa perm = .ok (k, it', s')) :
    WalkInv L r its s' ∧ Valid s'.mem r it' := by
  cases hva : vaIsCanonical it.va with
  | false =>
    have hnowhere : it = vmiterNowhere r it.va := by
      rcases hit.path with ⟨hcan, -⟩ | ⟨-, heq⟩
      · rw [hva] at hcan
        cases hcan
      · exact heq
    rw [hnowhere] at hres
    obtain ⟨rfl, rfl⟩ := tryMapIt_nowhere hres
    rw [← hnowhere]
    exact ⟨h, hit⟩
  | true =>
    by_cases hend : it.level = 0 ∨ ¬ IsLink (it.pep.load s.mem)
    swap
    · push Not at hend
      obtain ⟨rfl, rfl⟩ := tryMapIt_above hend.1 hend.2 hres
      exact ⟨h, hit⟩
    -- the address is aligned
    have haligned : it.va = it.va / 4096 * 4096 := by
      have hassert := hres
      rw [Vmiter.tryMapIt] at hassert
      obtain ⟨_, hassert, -⟩ := bind_eq_ok.1 hassert
      unfold Vmiter.tryMapAsserts at hassert
      obtain ⟨_, hassert, -⟩ := bind_eq_ok.1 hassert
      have hoffset := assert_eq_ok.1 hassert
      rw [show PAGESIZE - 1 = 2 ^ 12 - 1 by decide, Nat.and_two_pow_sub_one_eq_mod] at hoffset
      omega
    have hvalid : ∀ t : State, Valid t.mem r (vmiterAt t.mem r (it.va / 4096 * 4096)) := by
      intro t
      rw [← haligned]
      exact valid_vmiterAt hva hit.lt
    rw [hit.eq_vmiterAt hva hend, haligned] at hres
    obtain ⟨t, new, -, hinv, -, rfl, hcases⟩ :=
      tryMapIt_spec (hangInv_walkInv (it.va / 4096)) h h.tree h.free hres
    rcases hcases with ⟨-, rfl⟩ | ⟨-, hl, rfl⟩ | ⟨-, -, rfl⟩
    · exact ⟨hinv, hvalid _⟩
    · exact ⟨hinv.put hl, (hvalid t).set hinv.tree⟩
    · exact ⟨hinv, hvalid _⟩

end

/-- **A move** has the same result as a new iterator at the address moved to. -/
theorem Valid.moves (h : Valid s.mem r it) (hop : op.Moves)
    (hres : op.apply L r s it = .ok (it', s')) :
    s' = s ∧ ∃ va < 2 ^ 64, Vmiter.create s.mem (r * 4096) va = .ok it' := by
  have hmod : ∀ x, x % 2 ^ 64 < 2 ^ 64 := fun x => Nat.mod_lt x (by decide)
  cases op with
  | create va => exact hop.elim
  | tryMap pa perm => exact hop.elim
  | find va =>
    obtain ⟨it₁, hfind, hret⟩ := bind_eq_ok.1 hres
    cases hret
    exact ⟨rfl, _, va.toNat_lt, (h.realFind _).symm.trans hfind⟩
  | advance delta =>
    obtain ⟨it₁, hfind, hret⟩ := bind_eq_ok.1 hres
    cases hret
    exact ⟨rfl, _, hmod _, (h.realFind _).symm.trans hfind⟩
  | retreat delta =>
    obtain ⟨it₁, hfind, hret⟩ := bind_eq_ok.1 hres
    cases hret
    exact ⟨rfl, _, hmod _, (h.realFind _).symm.trans hfind⟩
  | next =>
    obtain ⟨it₁, hfind, hret⟩ := bind_eq_ok.1 hres
    cases hret
    exact ⟨rfl, _, hmod _, (h.realFind _).symm.trans hfind⟩
  | nextRange =>
    obtain ⟨it₁, hfind, hret⟩ := bind_eq_ok.1 hres
    cases hret
    exact ⟨rfl, _, hmod _, (h.realFind _).symm.trans hfind⟩

/-- **An operation** keeps every iterator valid. -/
theorem WalkInv.apply {its : ℕ → Option Vmiter} (h : WalkInv L r its s) (hit : Valid s.mem r it)
    (hres : op.apply L r s it = .ok (it', s')) : WalkInv L r its s' ∧ Valid s'.mem r it' := by
  by_cases hop : op.Moves
  · obtain ⟨rfl, va, hlt, hcreate⟩ := hit.moves hop hres
    exact ⟨h, (create_valid hcreate hlt).1⟩
  · cases op with
    | create va =>
      obtain ⟨it₁, hcreate, hret⟩ := bind_eq_ok.1 hres
      cases hret
      exact ⟨h, (create_valid hcreate va.toNat_lt).1⟩
    | tryMap pa perm =>
      obtain ⟨⟨k, it₁, s₁⟩, hcall, hret⟩ := bind_eq_ok.1 hres
      cases hret
      exact h.tryMapIt hit hcall
    | _ => exact absurd trivial hop

theorem WalkInv.step {x : ℕ × WalkOp} (h : WalkInv L r w.its w.state)
    (hstep : Walkers.step L r w x = .ok w') : WalkInv L r w'.its w'.state := by
  obtain ⟨j, op⟩ := x
  unfold Walkers.step at hstep
  simp only at hstep
  cases hj : w.its j with
  | none =>
    rw [hj] at hstep
    cases op with
    | create va =>
      obtain ⟨it, hcreate, hret⟩ := bind_eq_ok.1 hstep
      cases hret
      exact h.update (create_valid hcreate va.toNat_lt).1
    | _ =>
      cases hstep
      exact h
  | some it =>
    rw [hj] at hstep
    obtain ⟨⟨it₁, s₁⟩, happly, hret⟩ := bind_eq_ok.1 hstep
    cases hret
    obtain ⟨hinv, hvalid⟩ := h.apply (h.valid j it hj) happly
    exact hinv.update hvalid

/-- **Incremental walks.**  Whatever has been done before with the iterators over a page table, one
    that is moved is the same as a new iterator at its address, and reads what the processor finds
    there. -/
theorem walkers_agree {ops : List (ℕ × WalkOp)} (hs : Shaped s.mem r) (hfree : FreeOutside L s r)
    (hrun : run (Walkers.step L r) ⟨s, fun _ => none⟩ ops = .ok w) (hit : w.its j = some it)
    (hop : op.Moves) (hstep : Walkers.step L r w (j, op) = .ok w') :
    ∃ it', w'.its j = some it' ∧ Vmiter.create w'.state.mem (r * PAGESIZE) it'.va = .ok it' ∧
      ReadsArch w'.state.mem r it' := by
  have hinv : WalkInv L r w.its w.state := by
    refine run_inv (fun w => WalkInv L r w.its w.state) (A := fun _ => True)
      (fun w x w' h _ _ hstep => h.step hstep) ?_ (fun _ _ => trivial) meets_true hrun
    exact ⟨hs.tree, hfree, hs.large, fun j it hj => by cases hj⟩
  unfold Walkers.step at hstep
  simp only [hit] at hstep
  obtain ⟨⟨it', s₁⟩, happly, hret⟩ := bind_eq_ok.1 hstep
  cases hret
  obtain ⟨rfl, va, hlt, hcreate⟩ := (hinv.valid j it hit).moves hop happly
  obtain ⟨-, rfl⟩ := create_valid hcreate hlt
  exact ⟨it', Function.update_self _ _ _, hcreate, create_readsArch hinv.large hcreate⟩

/-- An iterator is made, tables are linked under it through another one, and it is moved. -/
def parked : List (ℕ × WalkOp) :=
  [(0, .create 0x100000), (1, .create 0x101000), (1, .tryMap 0x8000 7), (1, .advance 0x1000)]

theorem walkers_agree_parked : ∃ w it w',
    run (Walkers.step smallKernel 1) ⟨emptyTable, fun _ => none⟩ parked = .ok w ∧
      w.its 0 = some it ∧
    Walkers.step smallKernel 1 w (0, .next) = .ok w' ∧
    ∃ it', w'.its 0 = some it' ∧ Vmiter.create w'.state.mem (1 * PAGESIZE) it'.va = .ok it' ∧
      ReadsArch w'.state.mem 1 it' := by
  have hcheck : (match run (Walkers.step smallKernel 1) ⟨emptyTable, fun _ => none⟩ parked with
      | .ok w => (w.its 0).isSome && (Walkers.step smallKernel 1 w (0, .next)).isOk
      | .error _ => false) = true := by
    decide +kernel
  have hs : Shaped emptyTable.mem 1 := by
    refine shaped_of_check ?_ (by decide +kernel)
    rw [emptyTable_tables]
    decide
  cases hrun : run (Walkers.step smallKernel 1) ⟨emptyTable, fun _ => none⟩ parked with
  | error e =>
    rw [hrun] at hcheck
    cases hcheck
  | ok w =>
    rw [hrun] at hcheck
    obtain ⟨hit, hok⟩ := Bool.and_eq_true_iff.1 hcheck
    obtain ⟨it, hit⟩ := Option.isSome_iff_exists.1 hit
    cases hstep : Walkers.step smallKernel 1 w (0, .next) with
    | error e =>
      rw [hstep] at hok
      cases hok
    | ok w' =>
      have hmoves : WalkOp.next.Moves := trivial
      exact ⟨w, it, w', rfl, hit, hstep, walkers_agree hs emptyTable_freeOutside hrun hit hmoves hstep⟩

end CProj.WeensyOS
