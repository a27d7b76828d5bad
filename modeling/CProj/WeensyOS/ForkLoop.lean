/-
  The loop of `syscall_fork` from its first to its last page, and the three ways it ends.
-/
import CProj.WeensyOS.Fork

namespace CProj.WeensyOS

variable {L : Layout} {b s : State} {r c v n : ℕ} {E K : List ℕ}

/-- What the loop does when there is no memory: it frees the child's table and, if there is one,
    the page that is not mapped yet. -/
def cleanup (c : ℕ) (E : List ℕ) (s : State) : Except Fault (Bool × State) := do
  let s ← pfree s (c * 4096)
  match E with
  | [] => return (false, s)
  | n :: _ =>
    let s ← kfree s (n * 4096)
    return (false, s)

/-- The cleanup always reports failure. -/
theorem cleanup_bind {α : Type} {f g : Bool × State → Except Fault α}
    (h : ∀ s, f (false, s) = g (false, s)) : cleanup c E s >>= f = cleanup c E s >>= g := by
  rw [cleanup]
  cases pfree s (c * 4096) with
  | error e => rfl
  | ok s =>
    cases E with
    | nil => exact h s
    | cons n E =>
      simp only [ok_bind]
      cases kfree s (n * 4096) with
      | error e => rfl
      | ok s => exact h s

/-- How the loop, or a part of it that ends in front of the page `v`, can end: with the child's
    table complete up to there, at a shared page that is not in `pages[]`, or with the cleanup of
    a state in which there is no memory. -/
def Ends (L : Layout) (b : State) (r c v : ℕ) (res : Except Fault (Bool × State)) : Prop :=
  (∃ K s, res = .ok (true, s) ∧ ForkInv L b r c v [] K s) ∨
  (res = .error .outOfBounds ∧ ∃ p ∈ shares b.mem r 768, NPAGES ≤ p) ∨
  ∃ w E K s, w < 768 ∧ ForkInv L b r c w E K s ∧ E.length ≤ 1 ∧ firstFree L s.pages = none ∧
    res = cleanup c E s

/-- Every page that `kalloc` hands out in the loop was free in the state `b`. -/
def FreshAlloc (L : Layout) (b : State) (r c : ℕ) : Prop :=
  ∀ ⦃v E K s n⦄, v < 768 → E.length ≤ 1 → ForkInv L b r c v E K s → firstFree L s.pages = some n →
    Fresh b c E K s n

theorem ForkInv.linkInv (hf : FreshAlloc L b r c) (hv : v < 768) (hE : E.length ≤ 1) :
    LinkInv L c v (ForkInv L b r c v E K) := fun _ _ _ h hfree hlink =>
  h.link hv hfree hlink (hf hv hE h hfree)

theorem mem_shared {m : Mem} {p : ℕ} : p ∈ shared m r v ↔
    ∃ q, translate m r v = some (p, q) ∧ IsUser q ∧ ¬ IsWritable q := by
  rw [shared]
  cases h : translate m r v with
  | none => simp
  | some x =>
    obtain ⟨n, q⟩ := x
    simp only [Option.some.injEq, Prod.mk.injEq]
    constructor
    · intro hp
      split_ifs at hp with hq
      · exact ⟨q, ⟨(List.mem_singleton.1 hp).symm, rfl⟩, hq⟩
      · cases hp
    · rintro ⟨q', ⟨rfl, rfl⟩, hq⟩
      rw [if_pos hq]
      exact List.mem_singleton_self _

/-- A shared page is one of the parent's pages. -/
theorem Parent.mem_procPages (hb : Parent b r) (hv : v ≤ 768) {p : ℕ}
    (hp : p ∈ shares b.mem r v) : p ∈ procPages b.mem r := by
  obtain ⟨w, hw, hp⟩ := List.mem_flatMap.1 hp
  obtain ⟨q, htr, huser, -⟩ := mem_shared.1 hp
  have hwv := List.mem_range.1 hw
  refine WeensyOS.mem_procPages.2 ⟨w, ?_, by omega, userPage_eq_some.2 ⟨q, htr, huser⟩⟩
  by_contra hlt
  rw [(hb.low w (by omega)).2] at hp
  cases hp

/-- The child's own pages have one reference. -/
theorem ForkInv.pages_eq_one (h : ForkInv L b r c v E K s) (hb : Parent b r) (hv : v ≤ 768) {p : ℕ}
    (hp : p ∈ E ++ K ++ tables s.mem 3 c) : s.pages p = 1 := by
  have h0 := (h.fresh p hp).1
  have hshares : p ∉ shares b.mem r v := fun hs => hb.pages p (hb.mem_procPages hv hs) h0
  rw [h.pages, h0, List.count_append, List.count_eq_one_of_mem h.nodup hp,
    List.count_eq_zero_of_not_mem hshares]
  rfl

theorem ForkInv.tablesUsed (h : ForkInv L b r c v E K s) (hb : Parent b r) (hv : v ≤ 768) :
    TablesUsed s c := by
  intro p hp
  rw [h.pages_eq_one hb hv (List.mem_append_right _ hp)]
  decide

/-- The child's iterator is set to the page `v`. -/
theorem childIt_bind (hs : Shaped s.mem c) (hv : v < 768) {α : Type} (f : Vmiter → Except Fault α) :
    (do
      let child ← Vmiter.create s.mem (c * 4096) 0
      let child ← child.find s.mem (v * 4096)
      f child) = f (vmiterAt s.mem c (v * 4096)) := by
  rw [create_eq hs (canonical_of_lt (by decide)) (by decide), ok_bind, Vmiter.find,
    realFind_eq hs (canonical_of_lt (by omega)) (by omega), ok_bind]

/-- The parent's iterator reads the same in every state of the loop. -/
theorem ForkInv.parent (h : ForkInv L b r c v E K s) (hb : Parent b r) (w : ℕ) :
    vmiterAt s.mem r (w * 4096) = vmiterAt b.mem r (w * 4096) ∧
      translate s.mem r w = translate b.mem r w := by
  have hagree := h.agree hb
  refine ⟨?_, hagree.translate⟩
  simp only [vmiterAt, hagree.stop]

theorem State.store_of_nil {q : ℕ} (h : shared b.mem r v = []) :
    s.store b r c v n q = s.map c v n q := by
  have hpages : (fun p => s.pages p + UInt8.ofNat ((shared b.mem r v).count p)) = s.pages := by
    funext p
    rw [h, List.count_nil]
    exact UInt8.add_zero _
  rw [State.store, hpages]
  rfl

/-- A page that the parent does not map. -/
theorem ForkInv.absent (h : ForkInv L b r c v [] K s) (hv : v < 768)
    (htr : translate b.mem r v = none) : ForkInv L b r c (v + 1) [] K
      (if (stop s.mem c v).level = 0 then s.map c v 0 0 else s) := by
  have hshared : shared b.mem r v = [] := by rw [shared, htr]
  split_ifs with hl
  · have hnone : translate (mapped s.mem c v 0 0) c v = none := by
      rw [translate_mapped h.shaped hl (by decide) (by decide), if_neg (by decide)]
    rw [← State.store_of_nil (b := b) (r := r) hshared]
    refine h.store hv hl (by decide) (by decide) ⟨?_, fun _ => ⟨rfl, hshared⟩, fun _ => ?_, ?_⟩
    · rw [Maps, htr]
      exact hnone
    · rw [userPage, hnone, hshared]
      rfl
    · rw [copied, htr]
      rfl
  · exact h.skip hv htr

/-! ## One page -/

/-- The iterator of the loop, in front of the page `v`. -/
def parentIt (b : State) (r v : ℕ) : Vmiter := vmiterAt b.mem r (v * 4096)

section
variable {q : ℕ}

/-- What the parent's iterator says about a page that is present. -/
theorem ForkInv.reads {w : ℕ} (h : ForkInv L b r c w E K s) (hb : Parent b r)
    (htr : translate b.mem r v = some (n, q)) :
    (parentIt b r v).pa s.mem = n * 4096 ∧ (parentIt b r v).permissions s.mem = q ∧
      ((parentIt b r v).user s.mem = true ↔ IsUser q) ∧
      ((parentIt b r v).writable s.mem = true ↔ IsWritable q) := by
  obtain ⟨hit, htr'⟩ := h.parent hb v
  have hdiv : v * 4096 / 4096 = v := Nat.mul_div_cancel _ (by decide)
  rw [htr] at htr'
  rw [parentIt, ← hit]
  refine ⟨?_, ?_, ?_, ?_⟩
  · rw [vmiterAt_pa (by rw [hdiv]; exact htr')]
    omega
  · rw [vmiterAt_permissions, hdiv, htr']
  · rw [vmiterAt_user, hdiv, htr']
    simp
  · rw [vmiterAt_writable, hdiv, htr']
    simp

theorem parentIt_va : (parentIt b r v).va ≠ CONSOLE_ADDR ↔ v ≠ CONSOLE_PAGE := by
  change v * 4096 ≠ 0xB8000 ↔ v ≠ 0xB8
  omega

/-- What an iterator says about a page that is not present. -/
theorem vmiterAt_absent {m : Mem} (htr : translate m r v = none) :
    (vmiterAt m r (v * 4096)).pa m = NEG_ONE ∧ (vmiterAt m r (v * 4096)).permissions m = 0 ∧
      ¬ (vmiterAt m r (v * 4096)).user m = true := by
  have hdiv : v * 4096 / 4096 = v := Nat.mul_div_cancel _ (by decide)
  refine ⟨vmiterAt_pa_none (by rw [hdiv]; exact htr), ?_, ?_⟩
  · rw [vmiterAt_permissions, hdiv, htr]
  · rw [vmiterAt_user, hdiv, htr]
    simp

/-- A page that the parent does not map clears the child's entry, if there is one. -/
theorem forkPage_none {s' : State} (hs' : s' = if (stop s.mem c v).level = 0 then s.map c v 0 0 else s)
    (hc : Shaped s.mem c) (hv : v < 768) (htr : translate s.mem r v = none)
    (hit : vmiterAt s'.mem r (v * 4096) = vmiterAt s.mem r (v * 4096))
    (htr' : translate s'.mem r v = none) :
    forkPage L (c * 4096) (vmiterAt s.mem r (v * 4096)) s = .ok (true, s') := by
  obtain ⟨hpa, hperm, huser⟩ := vmiterAt_absent htr
  have huser' := (vmiterAt_absent htr').2.2
  rw [hit] at huser'
  rw [forkPage, if_neg fun hc => huser hc.1]
  refine (childIt_bind hc hv _).trans ?_
  rw [hpa, hperm, tryMap_zero, ok_bind, ← hs']
  change (if _ then _ else _) = _
  rw [if_neg (by decide), if_neg fun hc => huser' hc.1]
  rfl

theorem forkPage_absent (h : ForkInv L b r c v [] K s) (hb : Parent b r) (hv : v < 768)
    (htr : translate b.mem r v = none) :
    Ends L b r c (v + 1) (forkPage L (c * 4096) (parentIt b r v) s) := by
  have h' := h.absent hv htr
  obtain ⟨hit, htr₁⟩ := h.parent hb v
  obtain ⟨hit', htr₂⟩ := h'.parent hb v
  rw [htr] at htr₁ htr₂
  refine Or.inl ⟨K, _, ?_, h'⟩
  rw [parentIt, ← hit]
  exact forkPage_none rfl h.shaped hv htr₁ (hit'.trans hit.symm) htr₂

/-- The call of `try_map` for the page `v`. -/
theorem ForkInv.tryMap (h : ForkInv L b r c v E K s) (hb : Parent b r) (hf : FreshAlloc L b r c)
    (hv : v < 768) (hE : E.length ≤ 1) (htr : translate b.mem r v = some (n, q)) {n' : ℕ}
    (hn' : n' < 2 ^ 20) :
    ∃ s', ForkInv L b r c v E K s' ∧ (∀ p ∉ tables s.mem 3 c, s.pages p ≠ 0 → s'.mem p = s.mem p) ∧
      ((stop s'.mem c v).level = 0 ∧
          (vmiterAt s.mem c (v * 4096)).tryMap L s (n' * 4096) q = .ok (0, s'.map c v n' q) ∨
        firstFree L s'.pages = none ∧
          (vmiterAt s.mem c (v * 4096)).tryMap L s (n' * 4096) q = .ok (-1, s')) := by
  obtain ⟨hodd, hq⟩ := translate_perm htr
  obtain ⟨s', new, hg, h', -, -, hres⟩ := tryMap_spec (ForkInv.linkInv hf hv hE) h h.shaped
    (h.tablesUsed hb hv.le) (hn'.trans (by norm_num)) hodd (pwu_and_full (h.full v) q).1 hq
    (fun _ => translate_eq_none (h.beyond v (canonical_of_lt (by omega)) le_rfl))
  refine ⟨s', h', fun p hp h0 => hg.mem p hp fun hnew => h0 (hg.fresh p hnew).1,
    hres.imp_right fun hfail => ⟨hfail.1.2, hfail.2⟩⟩

/-- The page after `kalloc`, and after `memcpy`. -/
theorem ForkInv.copyPage {n' : ℕ} (h : ForkInv L b r c v [] K s)
    (hfree : firstFree L s.pages = some n') (hfresh : Fresh b c [] K s n') (hsrc : b.pages n ≠ 0) :
    ForkInv L b r c v [n'] K (s.alloc n' 0xCCCCCCCCCCCCCCCC) ∧
      ForkInv L b r c v [n'] K { s.alloc n' 0xCCCCCCCCCCCCCCCC with
        mem := (s.alloc n' 0xCCCCCCCCCCCCCCCC).mem.copy n' n } ∧
      (s.alloc n' 0xCCCCCCCCCCCCCCCC).mem.copy n' n n' = b.mem n := by
  have hne : n ≠ n' := by
    rintro rfl
    exact hsrc hfresh.1
  refine ⟨h.alloc hfree hfresh fun p hp => funext fun i => fill_of_ne hp i,
    h.alloc hfree hfresh fun p hp => ?_, ?_⟩
  · funext i
    rw [Mem.copy, if_neg hp]
    exact fill_of_ne hp i
  · rw [← h.mem n (h.not_mem hsrc)]
    funext i
    rw [Mem.copy, if_pos rfl]
    exact fill_of_ne hne i

/-- A page that the child gets a copy of. -/
theorem forkPage_copied (h : ForkInv L b r c v [] K s) (hb : Parent b r) (hf : FreshAlloc L b r c)
    (hv : v < 768) (htr : translate b.mem r v = some (n, q)) (hc : copied b.mem r v = true) :
    Ends L b r c (v + 1) (forkPage L (c * 4096) (parentIt b r v) s) := by
  obtain ⟨hpa, hperm, huser, hwritable⟩ := h.reads hb htr
  have hq : IsUser q ∧ v ≠ CONSOLE_PAGE ∧ IsWritable q := by
    obtain ⟨n₁, q₁, h1, h2⟩ := copied_iff.1 hc
    rw [htr] at h1
    cases h1
    exact h2
  have hshared : shared b.mem r v = [] := by
    rw [shared, htr]
    simp [hq.2.2]
  have hsrc : b.pages n ≠ 0 := hb.copied hv hc htr
  rw [forkPage, if_pos ⟨huser.2 hq.1, parentIt_va.2 hq.2.1, hwritable.2 hq.2.2⟩]
  cases hfree : firstFree L s.pages with
  | none =>
    refine Or.inr (Or.inr ⟨v, [], K, s, hv, h, Nat.zero_le 1, hfree, ?_⟩)
    rw [kalloc_none hfree]
    rfl
  | some n' =>
    have hfresh := hf (E := []) hv (Nat.zero_le 1) h hfree
    have halloc := (firstFree_some hfree).1
    obtain ⟨h1, h2, hbytes⟩ := h.copyPage hfree hfresh hsrc
    have hn20 : n' < 2 ^ 20 := lt_trans halloc.lt (by decide)
    obtain ⟨s', h', hframe, hres⟩ := h2.tryMap hb hf hv le_rfl htr hn20
    have hkeep : s'.mem n' = b.mem n := by
      rw [← hbytes]
      refine hframe n' (fun ht => ?_) ?_
      swap
      · change Function.update s.pages n' 1 n' ≠ 0
        rw [Function.update_self]
        decide
      exact (List.nodup_append.1 h2.nodup).2.2 n'
        (List.mem_append_left _ List.mem_cons_self) n' ht rfl
    have hchild := fun f => childIt_bind (α := Bool × State) h2.shaped hv f
    have hpos : ¬ n' * 4096 = 0 := by
      have := halloc.pos
      omega
    rw [kalloc_some hfree]
    simp only [hpos, if_false, page_div, (h1.reads hb htr).1]
    refine (congrArg (Ends L b r c (v + 1)) (hchild _)).mpr ?_
    rw [(h2.reads hb htr).2.1]
    rcases hres with ⟨hl, hok⟩ | ⟨hnone, hfail⟩
    · refine Or.inl ⟨[n'] ++ K, _, ?_, h'.store hv hl hn20 (translate_perm htr).2
        (h'.entry hb hv hl htr hn20 (by rw [if_pos hc]; exact ⟨rfl, hkeep⟩))⟩
      rw [State.store_of_nil hshared, hok]
      rfl
    · refine Or.inr (Or.inr ⟨v, [n'], K, s', hv, h', le_rfl, hnone, ?_⟩)
      rw [hfail]
      rfl

/-- The count of a shared page is raised. -/
theorem State.store_of_single {n' : ℕ} (hshared : shared b.mem r v = [n]) :
    s.store b r c v n' q = { s.map c v n' q with
      pages := Function.update s.pages n (s.pages n + 1) } := by
  have hpages : Function.update s.pages n (s.pages n + 1) =
      fun p => s.pages p + UInt8.ofNat ((shared b.mem r v).count p) := by
    funext p
    rw [hshared, List.count_singleton, Function.update_apply]
    by_cases hp : p = n
    · subst hp
      rw [if_pos rfl, if_pos (by simp)]
      rfl
    · rw [if_neg hp, if_neg (by simpa using Ne.symm hp)]
      exact (UInt8.add_zero _).symm
  rw [State.store, hpages]

/-- A page that the child maps to the same frame. -/
theorem forkPage_kept (h : ForkInv L b r c v [] K s) (hb : Parent b r) (hf : FreshAlloc L b r c)
    (hv : v < 768) (htr : translate b.mem r v = some (n, q)) (hc : copied b.mem r v = false) :
    Ends L b r c (v + 1) (forkPage L (c * 4096) (parentIt b r v) s) := by
  obtain ⟨hpa, hperm, huser, hwritable⟩ := h.reads hb htr
  have hcond : ¬ ((parentIt b r v).user s.mem = true ∧ (parentIt b r v).va ≠ CONSOLE_ADDR ∧
      (parentIt b r v).writable s.mem = true) := by
    rintro ⟨h1, h2, h3⟩
    rw [copied_iff.2 ⟨n, q, htr, huser.1 h1, parentIt_va.1 h2, hwritable.1 h3⟩] at hc
    cases hc
  have hn20 : n < 2 ^ 20 := hb.shaped.frame_lt (by omega) htr
  have hchild := fun f => childIt_bind (α := Bool × State) h.shaped hv f
  rw [forkPage, if_neg hcond]
  refine (congrArg (Ends L b r c (v + 1)) (hchild _)).mpr ?_
  rw [hpa, hperm]
  obtain ⟨s', h', -, ⟨hl, hok⟩ | ⟨hnone, hfail⟩⟩ := h.tryMap hb hf hv (Nat.zero_le 1) htr hn20
  · rw [hok, ok_bind]
    have hstore := h'.store hv hl hn20 (translate_perm htr).2
      (h'.entry hb hv hl htr hn20 (by rw [hc]; exact ⟨rfl, rfl⟩))
    obtain ⟨hpa', -, huser', hwritable'⟩ := hstore.reads hb htr
    change (parentIt b r v).pa (s'.map c v n q).mem = _ at hpa'
    change (parentIt b r v).user (s'.map c v n q).mem = true ↔ _ at huser'
    change (parentIt b r v).writable (s'.map c v n q).mem = true ↔ _ at hwritable'
    change Ends L b r c (v + 1) (if _ then _ else _)
    rw [if_neg (by decide), hpa']
    by_cases hsh : IsUser q ∧ ¬ IsWritable q
    · have hshared : shared b.mem r v = [n] := by
        rw [shared, htr]
        exact if_pos hsh
      rw [if_pos ⟨huser'.2 hsh.1, mt hwritable'.1 hsh.2⟩, refcountIncr, pageinfo, page_div]
      by_cases hlt : n < NPAGES
      · refine Or.inl ⟨_, _, ?_, hstore⟩
        rw [if_pos hlt]
        rw [State.store_of_single hshared]
        rfl
      · refine Or.inr (Or.inl ⟨by rw [if_neg hlt]; rfl, n, ?_, not_lt.1 hlt⟩)
        exact List.mem_flatMap.2 ⟨v, List.mem_range.2 hv,
          by rw [hshared]; exact List.mem_singleton_self n⟩
    · have hshared : shared b.mem r v = [] := by
        rw [shared, htr]
        exact if_neg hsh
      rw [if_neg fun hc => hsh ⟨huser'.1 hc.1, mt hwritable'.2 hc.2⟩]
      rw [State.store_of_nil hshared] at hstore
      exact Or.inl ⟨_, _, rfl, hstore⟩
  · refine Or.inr (Or.inr ⟨v, [], K, s', hv, h', Nat.zero_le 1, hnone, ?_⟩)
    rw [hfail]
    rfl

theorem forkPage_spec (h : ForkInv L b r c v [] K s) (hb : Parent b r) (hf : FreshAlloc L b r c)
    (hv : v < 768) : Ends L b r c (v + 1) (forkPage L (c * 4096) (parentIt b r v) s) := by
  cases htr : translate b.mem r v with
  | none => exact forkPage_absent h hb hv htr
  | some x =>
    obtain ⟨n, q⟩ := x
    cases hc : copied b.mem r v with
    | false => exact forkPage_kept h hb hf hv htr hc
    | true => exact forkPage_copied h hb hf hv htr hc

end

/-! ## The loop -/

/-- **The loop of `syscall_fork`** ends in one of the three ways. -/
theorem forkLoop_spec (hb : Parent b r) (hf : FreshAlloc L b r c) : ∀ (k fuel v : ℕ) (K : List ℕ)
    (s : State), v + k = 768 → k < fuel → ForkInv L b r c v [] K s →
    Ends L b r c 768 (forkLoop L (c * 4096) fuel (parentIt b r v) s)
  | 0, fuel + 1, v, K, s, hv, _, h => by
    have hva : ¬ (parentIt b r v).va < MEMSIZE_VIRTUAL := by
      change ¬ v * 4096 < 0x300000
      omega
    obtain rfl : v = 768 := hv
    rw [forkLoop, if_neg hva]
    exact Or.inl ⟨K, s, rfl, h⟩
  | k + 1, fuel + 1, v, K, s, hv, hfuel, h => by
    have hva : (parentIt b r v).va < MEMSIZE_VIRTUAL := by
      change v * 4096 < 0x300000
      omega
    rw [forkLoop, if_pos hva]
    rcases forkPage_spec h hb hf (by omega) with ⟨K', s', hok, h'⟩ | ⟨herr, hp⟩ |
      ⟨w, E, K', s', hw, h', hE, hnone, heq⟩
    · have hadv : (parentIt b r v).advance s'.mem PAGESIZE = .ok (parentIt b r (v + 1)) := by
        rw [parentIt, parentIt, ← (h'.parent hb v).1, ← (h'.parent hb (v + 1)).1]
        exact advance_eq ((h'.agree hb).shaped hb.shaped) (by omega)
      rw [hok, ok_bind]
      change Ends L b r c 768 (if true = true then _ else _)
      rw [if_pos rfl, hadv, ok_bind]
      exact forkLoop_spec hb hf k fuel (v + 1) K' s' (by omega) (by omega) h'
    · rw [herr]
      exact Or.inr (Or.inl ⟨rfl, hp⟩)
    · refine Or.inr (Or.inr ⟨w, E, K', s', hw, h', hE, hnone, ?_⟩)
      rw [heq]
      refine Eq.trans (cleanup_bind (g := pure) fun s => ?_) (bind_pure _)
      rfl

/-- A loop over pages that the parent does not map, and whose entries in the child's table are
    clear, changes nothing. -/
theorem forkLoop_none (hr : Shaped s.mem r) (hc : Shaped s.mem c) : ∀ (k fuel v : ℕ), v + k = 768 →
    k < fuel → (∀ w, v ≤ w → w < 768 → translate s.mem r w = none ∧
      ((stop s.mem c w).level = 0 → s.mem (stop s.mem c w).page (stop s.mem c w).idx = 0)) →
    forkLoop L (c * 4096) fuel (vmiterAt s.mem r (v * 4096)) s = .ok (true, s)
  | 0, fuel + 1, v, hv, _, _ => by
    have hva : ¬ (vmiterAt s.mem r (v * 4096)).va < MEMSIZE_VIRTUAL := by
      change ¬ v * 4096 < 0x300000
      omega
    rw [forkLoop, if_neg hva]
  | k + 1, fuel + 1, v, hv, hfuel, h => by
    have hva : (vmiterAt s.mem r (v * 4096)).va < MEMSIZE_VIRTUAL := by
      change v * 4096 < 0x300000
      omega
    obtain ⟨htr, hclear⟩ := h v le_rfl (by omega)
    have hs : s = if (stop s.mem c v).level = 0 then s.map c v 0 0 else s := by
      split_ifs with hl
      · have hmem : mapped s.mem c v 0 0 = s.mem := by
          funext p i
          rw [mapped, Mem.set]
          split_ifs with hp
          · rw [hp.1, hp.2, hclear hl]
          · rfl
        rw [State.map, hmem]
      · rfl
    rw [forkLoop, if_pos hva, forkPage_none hs hc (by omega) htr rfl htr, ok_bind]
    change (if true = true then _ else _) = _
    rw [if_pos rfl, advance_eq hr (by omega), ok_bind]
    exact forkLoop_none hr hc k fuel (v + 1) (by omega) (by omega) fun w hw => h w (by omega)

/-- **The loop begins** with an empty table. -/
theorem forkInv_init (h0 : b.pages c = 0) (hc : Alloc L c) :
    ForkInv L b r c 0 [] [] (b.alloc c 0) := by
  have hempty : ∀ i, (b.alloc c 0).mem c i = 0 := fun i => fill_self
  have hsub : subtables (b.alloc c 0).mem 3 c = [] := subtables_empty hempty
  have htables : tables (b.alloc c 0).mem 3 c = [c] := by rw [tables, hsub]
  have hstop : ∀ w, stop (b.alloc c 0).mem c w = ⟨3, c, ix w 3, initialPerm⟩ := fun w =>
    walk_empty hempty
  have hnone : ∀ w, translate (b.alloc c 0).mem c w = none := by
    intro w
    rw [translate, hstop]
    simp only [hempty]
    rfl
  refine ⟨⟨?_, ?_, fun w _ hp => ?_⟩, fun w => ?_, fun w hp => absurd (hnone w) hp, ?_, ?_, ?_,
    fun p => ?_, ?_, fun w _ _ => hnone w,
    fun w hw => absurd hw (Nat.not_lt_zero w), fun w hw => absurd hw (Nat.not_lt_zero w), ?_, rfl,
      rfl⟩
  · rw [htables]
    exact List.nodup_singleton c
  · intro p hp i _
    rw [htables] at hp
    rw [List.mem_singleton.1 hp, hempty]
    decide
  · rw [hstop] at hp
    simp only [hempty] at hp
    cases hp
  · rw [hstop]
    change pwu initialPerm = 7
    decide
  · rw [htables]
    exact List.nodup_singleton c
  · rw [htables]
    intro p hp
    rw [List.mem_singleton.1 hp]
    exact ⟨h0, hc⟩
  · rw [htables]
    intro p hp
    exact funext fun i => fill_of_ne (by simpa using hp) i
  · rw [htables]
    change Function.update b.pages c 1 p = b.pages p + UInt8.ofNat ([c].count p)
    rw [Function.update_apply, List.count_singleton]
    by_cases hp : p = c
    · rw [if_pos hp, if_pos (by simpa using hp.symm), hp, h0]
      rfl
    · rw [if_neg hp, if_neg (by simpa using Ne.symm hp)]
      exact (UInt8.add_zero _).symm
  · have : procPages (b.alloc c 0).mem c = [] := by
      unfold procPages userPages
      refine List.flatMap_eq_nil_iff.2 fun w _ => ?_
      rw [userPage, hnone]
      rfl
    rw [this]
    exact List.Perm.refl _
  · rw [hsub, missing, hstop, hstop]
    change 0 + (3 + min 1 3) ≤ 4
    decide

/-! ## Counts that do not overflow -/

/-- The counts of the parent's read-only pages can be raised. -/
def NoWrap (b : State) (r : ℕ) : Prop :=
  ∀ p, (b.pages p).toNat + (shares b.mem r 768).count p ≤ 255

theorem shares_count_le {m : Mem} {w p : ℕ} (h : v ≤ w) :
    (shares m r v).count p ≤ (shares m r w).count p := by
  obtain ⟨k, rfl⟩ := Nat.exists_eq_add_of_le h
  rw [shares, shares, List.range_add, List.flatMap_append, List.count_append]
  exact Nat.le_add_right _ _

theorem ForkInv.toNat_pages (h : ForkInv L b r c v E K s) (hb : Parent b r) (hw : NoWrap b r)
    (hv : v ≤ 768) (p : ℕ) : (s.pages p).toNat = (b.pages p).toNat +
      (E ++ K ++ tables s.mem 3 c ++ shares b.mem r v).count p := by
  have hle : (E ++ K ++ tables s.mem 3 c ++ shares b.mem r v).count p + (b.pages p).toNat < 256 := by
    rw [List.count_append]
    by_cases hp : p ∈ E ++ K ++ tables s.mem 3 c
    · have h0 := (h.fresh p hp).1
      have hsh : p ∉ shares b.mem r v := fun hs => hb.pages p (hb.mem_procPages hv hs) h0
      rw [List.count_eq_one_of_mem h.nodup hp, List.count_eq_zero_of_not_mem hsh, h0]
      decide
    · have h1 := hw p
      have h2 := @shares_count_le r v b.mem 768 p hv
      rw [List.count_eq_zero_of_not_mem hp]
      omega
  rw [h.pages, UInt8.toNat_add, UInt8.toNat_ofNat']
  omega

theorem freshAlloc_of_noWrap (hb : Parent b r) (hw : NoWrap b r) : FreshAlloc L b r c := by
  intro v E K s n hv _ h hfree
  have hcount := h.toNat_pages hb hw hv.le n
  rw [(firstFree_some hfree).2] at hcount
  have hz : (0 : UInt8).toNat = 0 := rfl
  rw [hz, List.count_append] at hcount
  refine ⟨UInt8.toNat_inj.1 (by omega), fun hmem => ?_⟩
  have := List.count_pos_iff.2 hmem
  omega

/-! ## Cleaning up -/

theorem ForkInv.owned_count (h : ForkInv L b r c v E K s) (p : ℕ) :
    (owned s.mem c ++ E).count p = (E ++ K ++ tables s.mem 3 c ++ shares b.mem r v).count p := by
  have hprocs := h.procs.count_eq p
  rw [List.count_append] at hprocs
  simp only [owned, tables, List.count_append, List.count_cons, List.count_nil, hprocs]
  omega

/-- **The cleanup** gives back what the child has been given. -/
theorem cleanup_spec (h : ForkInv L b r c v E K s) (hb : Parent b r) (hw : NoWrap b r)
    (hv : v ≤ 768)
    (hE : E.length ≤ 1) (hfree : ∀ p ∈ shares b.mem r v, Freeable p) :
    cleanup c E s = .ok (false, { b with mem := s.mem }) := by
  have hcov : Covers s (owned s.mem c ++ E) := by
    intro p
    rw [h.owned_count, h.toNat_pages hb hw hv]
    exact Nat.le_add_left _ _
  have hpages : ∀ p ∈ E ++ K ++ tables s.mem 3 c, Freeable p := fun p hp =>
    have ha := (h.fresh p hp).2
    ⟨ha.pos, ha.lt, ha.not_console⟩
  have hpfree : pfree s (c * 4096) = .ok (s.release (owned s.mem c)) := by
    refine pfree_spec h.shaped (fun p hp => ?_) (fun p hp => ?_) hcov.left
    · rcases List.mem_append.1 (h.procs.mem_iff.1 hp) with hp | hp
      · exact hpages p (List.mem_append_left _ (List.mem_append_right _ hp))
      · exact hfree p hp
    · obtain ⟨h1, h2, -⟩ := hpages p (List.mem_append_right _ hp)
      exact ⟨h1, h2⟩
  have hrelease : s.release (owned s.mem c ++ E) = { b with mem := s.mem } := by
    have : (fun p => s.pages p - UInt8.ofNat ((owned s.mem c ++ E).count p)) = b.pages := by
      funext p
      rw [h.owned_count, h.pages]
      exact UInt8.add_sub_cancel _ _
    rw [State.release, this]
    rw [h.rest]
  rw [cleanup, hpfree, ok_bind]
  cases E with
  | nil =>
    rw [List.append_nil] at hrelease
    rw [hrelease]
    rfl
  | cons n E' =>
    obtain rfl : E' = [] := List.length_eq_zero_iff.1 (Nat.le_zero.1 (Nat.le_of_succ_le_succ hE))
    obtain ⟨hpos, hlt, -⟩ := hpages n (List.mem_append_left _ (List.mem_append_left _ List.mem_cons_self))
    simp only
    rw [kfree_release hpos hlt hcov, ok_bind, hrelease]
    rfl

end CProj.WeensyOS
