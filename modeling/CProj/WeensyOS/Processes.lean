/-
  Processes, as their programs see them.

  * `Processes` forgets the kernel: there is a set of processes, each with its local state, and
    `Processes.Step` says what the calls mean.  `getpid` gives a process its own name, `fork` makes a
    copy under a name that is not in use, `exit` ends a process; any other result is arbitrary.
  * On this level the assertions of `p-fork.cc` on the results of `fork` hold in every order of the steps
    (`Fork.Sane.step`), and a process that allocates uses its own name (`Named.step`).
-/
import CProj.WeensyOS.UserPrograms

namespace CProj.WeensyOS

@[ext]
structure Processes (σ : Type) where
  live : Set ℕ
  locals : ℕ → σ

variable {σ : Type} {P : Program σ} {x y : Processes σ} {i : ℕ}

/-- One step of one process, or of the kernel on its own. -/
inductive Processes.Step (P : Program σ) (x : Processes σ) : Processes σ → Prop
  | idle : Step P x x
  | resume {c : ℕ} {v : ℤ} (hc : c ∈ x.live) (hexit : P.request (x.locals c) ≠ .exit)
    (hgetpid : P.request (x.locals c) = .getpid → v = c)
    (hfork : P.request (x.locals c) = .fork → v = -1) :
    Step P x ⟨x.live, Function.update x.locals c (P.resume (x.locals c) v)⟩
  | fork {c k : ℕ} (hc : c ∈ x.live) (hreq : P.request (x.locals c) = .fork) (hk : 0 < k)
    (hfree : k ∉ x.live) :
    Step P x ⟨insert k x.live, Function.update (Function.update x.locals c (P.resume (x.locals c) k)) k
      (P.resume (x.locals c) 0)⟩
  | exit {c : ℕ} {l : σ} (hc : c ∈ x.live) (hreq : P.request (x.locals c) = .exit) :
    Step P x ⟨x.live \ {c}, Function.update x.locals c l⟩

/-- Every process is in a state that is good for its name. -/
def Processes.All (ok : ℕ → σ → Prop) (x : Processes σ) : Prop := ∀ i ∈ x.live, ok i (x.locals i)

/-- **Local invariants.** What a process keeps, whatever the others do, all keep. -/
theorem Processes.All.step {ok : ℕ → σ → Prop} (h : x.All ok)
    (hresume : ∀ (c : ℕ) l (v : ℤ), ok c l → (P.request l = .getpid → v = c) →
      P.request l ≠ .fork → ok c (P.resume l v))
    (hfork : ∀ c l (k : ℤ), ok c l → P.request l = .fork → ok c (P.resume l k) ∧ ∀ j, ok j (P.resume l 0))
    (hstep : Processes.Step P x y) : y.All ok := by
  cases hstep with
  | idle => exact h
  | @resume c v hc hexit hgetpid _ =>
    intro i hi
    simp only
    rw [Function.update_apply]
    split_ifs with hic
    · rw [hic]
      by_cases hreq : P.request (x.locals c) = .fork
      · exact (hfork c _ v (h c hc) hreq).1
      · exact hresume c _ v (h c hc) hgetpid hreq
    · exact h i hi
  | @fork c k hc hreq _ hfree =>
    intro i hi
    simp only
    rw [Function.update_apply, Function.update_apply]
    split_ifs with hik hic
    · exact (hfork c _ 0 (h c hc) hreq).2 i
    · rw [hic]
      exact (hfork c _ k (h c hc) hreq).1
    · exact h i (hi.resolve_left hik)
  | @exit c l hc _ =>
    intro i hi
    simp only
    rw [Function.update_of_ne hi.2]
    exact h i hi.1

/-! ## Names -/

/-- The variables of a process that allocates, as long as it does. -/
def Allocator.vars : Allocator.Pc → Option Allocator.Vars
  | .alloc v | .touch v | .mark v | .yield v | .done v => some v
  | .start | .failed => none

/-- The variable `p` of `p-allocator.cc` holds the name of the process. -/
def Allocator.Named (i : ℕ) (pc : Allocator.Pc) : Prop :=
  ∀ v, Allocator.vars pc = some v → v.p = i

theorem Allocator.named_loop {b : Bounds} {v : Allocator.Vars} (h : v.p = i) :
    Allocator.Named i (Allocator.loop b v) := by
  intro w hw
  rw [Allocator.loop] at hw
  split at hw
  · simp only at hw
    split_ifs at hw <;> cases hw <;> exact h
  · cases hw

theorem Allocator.Named.resume {b : Bounds} {pc : Allocator.Pc} {r : ℤ} (h : Allocator.Named i pc)
    (hr : Allocator.request pc = .getpid → r = i) : Allocator.Named i (Allocator.resume b pc r) := by
  cases pc with
  | start => exact named_loop (hr rfl)
  | alloc v =>
    intro w hw
    rw [Allocator.resume] at hw
    split_ifs at hw <;> cases hw <;> exact h v rfl
  | touch v =>
    intro w hw
    cases hw
    exact h v rfl
  | mark v =>
    intro w hw
    cases hw
    exact h v rfl
  | yield v => exact named_loop (h v rfl)
  | done v => exact h
  | failed => exact h

/-! ## `p-fork.cc` -/

namespace Fork

/-- What the process `i` may find in the results of `fork`. -/
def Sane (live : Set ℕ) (i : ℕ) : Pc → Prop
  | .fork1 => i = 1
  | .fork2 p1 => if i = 1 then ∃ k ∈ live, k ≠ 1 ∧ 0 < k ∧ p1 = k else p1 = 0
  | .check p1 p2 => if i = 1 then p1 ≠ 0 ∧ p2 ≠ 0 ∧ p1 ≠ p2 else p1 = 0 ∨ p2 = 0
  | .getpid | .noFork => True
  | .run pc => Allocator.Named i pc
  | .confused => False

theorem Sane.mono {live live' : Set ℕ} {pc : Pc} (h : Sane live i pc) (hsub : live ⊆ live') :
    Sane live' i pc := by
  cases pc with
  | fork2 p1 =>
    rw [Sane] at h ⊢
    split_ifs at h ⊢ with hi
    · obtain ⟨k, hk, hrest⟩ := h
      exact ⟨k, hsub hk, hrest⟩
    · exact h
  | _ => exact h

/-- The processes of `p-fork.cc`. -/
structure AllSane (x : Processes (Bounds × Pc)) : Prop where
  first : 1 ∈ x.live
  sane : ∀ i ∈ x.live, Sane x.live i (x.locals i).2

theorem Sane.resume {live : Set ℕ} {b : Bounds} {pc : Pc} {v : ℤ} (h : Sane live i pc)
    (hgetpid : request pc = .getpid → v = i) (hfork : request pc = .fork → v = -1) :
    Sane live i (resume b pc v) := by
  cases pc with
  | fork1 =>
    rw [hfork rfl]
    trivial
  | fork2 p1 =>
    rw [hfork rfl]
    trivial
  | check p1 p2 =>
    rw [hgetpid rfl, Fork.resume]
    have hi : ((i : ℤ) = 1) ↔ i = 1 := by omega
    rw [Sane] at h
    simp only [hi]
    rw [if_pos]
    · trivial
    · split_ifs at h ⊢ <;> exact h
  | getpid =>
    rw [hgetpid rfl]
    exact Allocator.named_loop rfl
  | run pc => exact Allocator.Named.resume h hgetpid
  | noFork => trivial
  | confused => exact h

/-- A copy that a process makes: the assertions will hold in both. -/
theorem Sane.fork {live : Set ℕ} {b : Bounds} {pc : Pc} {c k : ℕ} (h : Sane live c pc)
    (hreq : request pc = .fork) (hfirst : 1 ∈ live) (hk : 0 < k) (hfree : k ∉ live) :
    Sane (insert k live) c (Fork.resume b pc k) ∧ Sane (insert k live) k (Fork.resume b pc 0) := by
  have hk1 : k ≠ 1 := fun heq => hfree (heq ▸ hfirst)
  have hk0 : (k : ℤ) ≥ 0 := by omega
  cases pc with
  | fork1 =>
    rw [Sane] at h
    rw [Fork.resume, Fork.resume, if_pos hk0, if_pos le_rfl, Sane, Sane, if_pos h, if_neg hk1]
    exact ⟨⟨k, Set.mem_insert k live, hk1, hk, rfl⟩, rfl⟩
  | fork2 p1 =>
    rw [Sane] at h
    rw [Fork.resume, Fork.resume, if_pos hk0, if_pos le_rfl, Sane, Sane, if_neg hk1]
    refine ⟨?_, .inr rfl⟩
    split_ifs at h ⊢ with hc
    · -- the first copy is still there
      obtain ⟨k', hk', -, hpos, rfl⟩ := h
      have hne : k' ≠ k := fun heq => hfree (heq ▸ hk')
      exact ⟨by omega, by omega, by exact_mod_cast hne⟩
    · exact .inl h
  | run pc => cases pc <;> cases hreq
  | check p1 p2 => cases hreq
  | getpid => cases hreq
  | noFork => cases hreq
  | confused => cases hreq

theorem request_ne_exit (pc : Pc) : request pc ≠ .exit := by
  cases pc with
  | run pc => cases pc <;> exact Request.noConfusion
  | _ => exact Request.noConfusion

/-- **The assertions of `p-fork.cc` hold**, whatever the order of the steps. -/
theorem AllSane.step {x y : Processes (Bounds × Pc)} (h : AllSane x)
    (hstep : Processes.Step program x y) : AllSane y := by
  cases hstep with
  | idle => exact h
  | @resume c v hc hexit hgetpid hfork =>
    refine ⟨h.first, fun i hi => ?_⟩
    simp only
    rw [Function.update_apply]
    split_ifs with hic
    · rw [hic]
      exact (h.sane c hc).resume hgetpid hfork
    · exact h.sane i hi
  | @fork c k hc hreq hk hfree =>
    obtain ⟨hparent, hchild⟩ := (h.sane c hc).fork (b := (x.locals c).1) hreq h.first hk hfree
    refine ⟨Set.mem_insert_of_mem k h.first, fun i hi => ?_⟩
    simp only
    rw [Function.update_apply, Function.update_apply]
    split_ifs with hik hic
    · rw [hik]
      exact hchild
    · rw [hic]
      exact hparent
    · exact (h.sane i (hi.resolve_left hik)).mono (Set.subset_insert k x.live)
  | @exit c l hc hreq => exact absurd hreq (request_ne_exit _)

end Fork

end CProj.WeensyOS
