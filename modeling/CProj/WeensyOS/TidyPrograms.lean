/-
  The programs that come with the kernel keep to their heaps.

  `p-allocator.cc`, `p-fork.cc` and `p-forkexit.cc` are tidy: from the page behind `end` on they
  allocate page by page up to the stack, and store to these pages and to the console
  (`Allocator.tidy`, `Fork.tidy`, `ForkExit.tidy`).
-/
import CProj.WeensyOS.TidySteps

namespace CProj.WeensyOS

open Libc (Generator randRange srand)

variable {L : Layout} {b : Bounds}

/-! ## Addresses -/

/-- The program has its data below its heap, and its stack on the last page. -/
structure Bounds.Fits (b : Bounds) : Prop where
  start : PROC_START_ADDR ≤ b.end_
  data : b.end_ ≤ STACK_PAGE * PAGESIZE
  stack : STACK_PAGE * PAGESIZE < b.rsp ∧ b.rsp ≤ MEMSIZE_VIRTUAL

theorem Bounds.Fits.base (h : b.Fits) : b.dataTop % PAGESIZE = 0 ∧ 256 ≤ b.dataTop / PAGESIZE ∧
    b.dataTop / PAGESIZE ≤ STACK_PAGE ∧ b.end_ ≤ b.dataTop := by
  have h1 := h.start
  have h2 := h.data
  simp only [Bounds.dataTop, roundUp, PAGESIZE, PROC_START_ADDR, STACK_PAGE] at *
  omega

theorem Bounds.Fits.bottom (h : b.Fits) : b.stackBottom = STACK_PAGE * PAGESIZE := by
  obtain ⟨h1, h2⟩ := h.stack
  simp only [Bounds.stackBottom, roundDown, PAGESIZE, STACK_PAGE, MEMSIZE_VIRTUAL] at *
  omega

/-- `heap_top` is a page boundary between the data and the stack. -/
structure HeapTop (b : Bounds) (a : ℕ) : Prop where
  fits : b.Fits
  aligned : a % PAGESIZE = 0
  low : b.dataTop ≤ a
  high : a ≤ STACK_PAGE * PAGESIZE

variable {a : ℕ}

theorem Bounds.Fits.heapTop (h : b.Fits) : HeapTop b b.dataTop := by
  obtain ⟨h1, h2, h3, -⟩ := h.base
  rw [STACK_PAGE] at h3
  rw [PAGESIZE] at h1 h2 h3
  exact ⟨h, h1, le_rfl, by rw [STACK_PAGE, PAGESIZE]; omega⟩

theorem HeapTop.pages (h : HeapTop b a) : 256 ≤ b.dataTop / PAGESIZE ∧
    b.dataTop / PAGESIZE ≤ a / PAGESIZE ∧ a / PAGESIZE ≤ STACK_PAGE ∧ a = a / PAGESIZE * PAGESIZE := by
  obtain ⟨h1, h2, h3, -⟩ := h.fits.base
  obtain ⟨-, h4, h5, h6⟩ := h
  rw [STACK_PAGE] at *
  rw [PAGESIZE] at *
  omega

theorem HeapTop.next (h : HeapTop b a) (hne : a ≠ STACK_PAGE * PAGESIZE) :
    HeapTop b (a + PAGESIZE) ∧ (a + PAGESIZE) / PAGESIZE = a / PAGESIZE + 1 ∧
      a / PAGESIZE < STACK_PAGE := by
  obtain ⟨h1, h2, h3, h4⟩ := h
  rw [STACK_PAGE, PAGESIZE] at *
  exact ⟨⟨h1, by rw [PAGESIZE]; omega, by omega, by rw [STACK_PAGE, PAGESIZE]; omega⟩, by omega, by omega⟩

theorem consoleCell_page {row col : ℕ} (hrow : row < 25) (hcol : col < 80) :
    consoleCell row col / PAGESIZE = CONSOLE_PAGE := by
  rw [consoleCell, CONSOLE_PAGE, CONSOLE_COLUMNS, CONSOLE_ADDR, PAGESIZE]
  omega

/-! ## `p-allocator.cc` -/

namespace Allocator

/-- The page at the end of the heap. -/
def top (b : Bounds) : Pc → ℕ
  | .start | .failed => b.dataTop / PAGESIZE
  | .alloc v | .yield v | .done v => v.heap_top / PAGESIZE
  | .touch v | .mark v => v.heap_top / PAGESIZE + 1

def Ok (b : Bounds) : Pc → Prop
  | .start => b.Fits
  | .yield v | .done v => HeapTop b v.heap_top
  | .alloc v | .touch v | .mark v => HeapTop b v.heap_top ∧ v.heap_top ≠ STACK_PAGE * PAGESIZE
  | .failed => False

/-- The first word of a page `u` of the heap: `p` has been stored to its first byte. -/
def Word (pc : Pc) (u w : ℕ) : Prop :=
  match pc with
  | .start | .failed => True
  | .touch v => w = if u = v.heap_top / PAGESIZE then 0 else (v.p % 256).toNat
  | .alloc v | .mark v | .yield v | .done v => w = (v.p % 256).toNat

def heap : Heap (Bounds × Pc) where
  ok x := Ok x.1 x.2
  base x := x.1.dataTop / PAGESIZE
  top x := top x.1 x.2
  known x := Word x.2

variable {v : Vars}

/-- The loop does not fail: it stops at the stack, allocates, or yields. -/
theorem loop_cases (b : Bounds) (v : Vars) : ∃ gen, loop b v = .yield { v with gen := gen } ∨
    v.heap_top = b.stackBottom ∧ loop b v = .done { v with gen := gen } ∨
      v.heap_top ≠ b.stackBottom ∧ loop b v = .alloc { v with gen := gen } := by
  obtain ⟨-, heq⟩ := Libc.randRange_eq (g := v.gen) (show Libc.INT_MIN ≤ 0 by decide)
    (show ALLOC_SLOWDOWN - 1 ≤ Libc.INT_MAX by decide) (n := 99) rfl (by decide)
  refine ⟨(Libc.rand v.gen).2, ?_⟩
  rw [loop, heq]
  simp only
  split_ifs with h1 h2
  · exact .inr (.inl ⟨h2, rfl⟩)
  · exact .inr (.inr ⟨h2, rfl⟩)
  · exact .inl rfl

theorem follows_loop (h : HeapTop b v.heap_top) : Follows heap (b, .yield v) (b, loop b v) := by
  have hkeep : ∀ u : Pc, Ok b u → top b u = v.heap_top / PAGESIZE →
      (∀ k w, w = (v.p % 256).toNat → Word u k w) → Follows heap (b, .yield v) (b, u) := by
    intro u hok htop hword
    refine ⟨hok, htop.ge, fun k hlo hhi => ⟨hlo, ?_⟩, fun k w _ _ hw => hword k w hw⟩
    exact lt_of_lt_of_eq hhi htop
  obtain ⟨gen, heq | ⟨-, heq⟩ | ⟨hne, heq⟩⟩ := loop_cases b v
  · rw [heq]
    exact hkeep _ h rfl fun _ _ => id
  · rw [heq]
    exact hkeep _ h rfl fun _ _ => id
  · rw [heq]
    rw [h.fits.bottom] at hne
    exact hkeep _ ⟨h, hne⟩ rfl fun _ _ => id

theorem follows_begin (h : b.Fits) (p : ℤ) : Follows heap (b, .start) (b, begin_ b p) := by
  have hset : Follows heap (b, .start) (b, .yield ⟨p, srand (UInt32.ofInt p), b.dataTop⟩) :=
    ⟨h.heapTop, le_rfl, fun u hlo hhi => ⟨hlo, hhi⟩, fun u w hlo hhi _ => absurd hhi (not_lt.2 hlo)⟩
  exact hset.trans (follows_loop h.heapTop)

theorem Ok.bounds {pc : Pc} (h : Ok b pc) : 256 ≤ b.dataTop / PAGESIZE ∧
    b.dataTop / PAGESIZE ≤ top b pc ∧ top b pc ≤ STACK_PAGE := by
  cases pc with
  | start =>
    obtain ⟨-, h2, h3, -⟩ := h.base
    exact ⟨h2, le_rfl, h3⟩
  | yield v | done v =>
    obtain ⟨h1, h2, h3, -⟩ := HeapTop.pages h
    exact ⟨h1, h2, h3⟩
  | alloc v =>
    obtain ⟨h1, h2, h3, -⟩ := h.1.pages
    exact ⟨h1, h2, h3⟩
  | touch v | mark v =>
    obtain ⟨h1, h2, -, -⟩ := h.1.pages
    exact ⟨h1, h2.trans (Nat.le_succ _), (h.1.next h.2).2.2⟩
  | failed => exact h.elim

theorem follows_call {pc : Pc} (h : Ok b pc) (hreq : request pc = .getpid ∨ request pc = .yield)
    (r : ℤ) : Follows heap (b, pc) (b, resume b pc r) := by
  cases pc with
  | start => exact follows_begin h r
  | yield v => exact follows_loop h
  | done v => exact .refl h
  | alloc v | touch v | mark v | failed => rcases hreq with hreq | hreq <;> cases hreq

/-- **`p-allocator.cc`** keeps to its heap. -/
theorem tidy : Tidy program heap where
  bounds _ h := h.bounds
  call l h hreq r := by
    obtain ⟨b, pc⟩ := l
    refine follows_call h ?_ r
    rcases hreq with hreq | hreq | hreq
    · exact .inl hreq
    · exact .inr hreq
    · cases pc <;> cases hreq
  alloc l addr h hreq := by
    obtain ⟨b, pc⟩ := l
    cases pc with
    | alloc v =>
      cases hreq
      obtain ⟨-, -, -, h4⟩ := h.1.pages
      obtain ⟨-, -, hlt⟩ := h.1.next h.2
      refine ⟨h4, hlt, ⟨h.1, le_rfl, fun u hlo hhi => ⟨hlo, hhi⟩, fun _ _ _ _ => id⟩, h, rfl, rfl,
        (if_pos rfl).symm, fun u hu w hw => ?_⟩
      rw [hw]
      exact (if_neg (ne_of_lt hu)).symm
    | _ => cases hreq
  store l va n w h hreq := by
    obtain ⟨b, pc⟩ := l
    cases pc with
    | touch v =>
      cases hreq
      obtain ⟨-, h2, -, -⟩ := h.1.pages
      refine .inr ⟨h2, Nat.lt_succ_self _, h, rfl, rfl, fun u old hold => ?_⟩
      have haligned : v.heap_top % PAGESIZE / 8 = 0 ∧ v.heap_top % 8 = 0 := by
        have := h.1.aligned
        rw [PAGESIZE] at *
        omega
      rw [haligned.1, haligned.2]
      change old = _ at hold
      change _ = (v.p % 256).toNat
      by_cases hu : u = v.heap_top / PAGESIZE
      · rw [if_pos hu] at hold
        rw [if_pos ⟨hu, rfl⟩, hold, putBytes]
        omega
      · rw [if_neg hu] at hold
        rw [if_neg fun heq => hu heq.1, hold]
    | mark v =>
      cases hreq
      obtain ⟨hnext, hpage, -⟩ := h.1.next h.2
      refine .inl ⟨consoleCell_page (by decide) (by decide), hnext, hpage.ge, fun u hlo hhi => ⟨hlo, ?_⟩,
        fun _ _ _ _ => id⟩
      exact lt_of_lt_of_eq hhi hpage
    | _ => cases hreq
  load l va n h hreq := by
    obtain ⟨b, pc⟩ := l
    cases pc <;> cases hreq

theorem request_ne_panic {pc : Pc} (h : Ok b pc) : request pc ≠ .panic := by
  cases pc with
  | failed => exact h.elim
  | _ => exact Request.noConfusion

end Allocator

/-! ## `p-fork.cc` -/

namespace Fork

def top (b : Bounds) : Pc → ℕ
  | .run pc => Allocator.top b pc
  | _ => b.dataTop / PAGESIZE

def Ok (b : Bounds) : Pc → Prop
  | .run pc => Allocator.Ok b pc
  | _ => b.Fits

def Word : Pc → ℕ → ℕ → Prop
  | .run pc => Allocator.Word pc
  | _ => fun _ _ => True

def heap : Heap (Bounds × Pc) where
  ok x := Ok x.1 x.2
  base x := x.1.dataTop / PAGESIZE
  top x := top x.1 x.2
  known x := Word x.2

theorem follows_run {pc pc' : Allocator.Pc} (h : Follows Allocator.heap (b, pc) (b, pc')) :
    Follows heap (b, .run pc) (b, .run pc') := ⟨h.ok, h.top, h.within, h.known⟩

/-- Before the program allocates, its heap is empty. -/
theorem follows_empty {pc pc' : Pc} (hok : Ok b pc') (htop : top b pc = b.dataTop / PAGESIZE)
    (htop' : top b pc' = b.dataTop / PAGESIZE) : Follows heap (b, pc) (b, pc') := by
  refine ⟨hok, (htop.trans htop'.symm).le, fun u hlo hhi => ?_, fun u w hlo hhi => ?_⟩
  · exact absurd (lt_of_lt_of_eq hhi htop') (not_lt.2 hlo)
  · exact absurd (lt_of_lt_of_eq hhi htop') (not_lt.2 hlo)

theorem follows_call {pc : Pc} (h : Ok b pc)
    (hreq : request pc = .getpid ∨ request pc = .yield ∨ request pc = .fork) (r : ℤ) :
    Follows heap (b, pc) (b, resume b pc r) := by
  cases pc with
  | fork1 =>
    rw [resume]
    split_ifs <;> exact follows_empty h rfl rfl
  | fork2 p1 =>
    rw [resume]
    split_ifs <;> exact follows_empty h rfl rfl
  | check p1 p2 =>
    simp only [resume]
    split_ifs <;> exact follows_empty h rfl rfl
  | getpid =>
    have hstart : Follows heap (b, .getpid) (b, .run .start) := follows_empty h rfl rfl
    exact hstart.trans (follows_run (Allocator.follows_begin h r))
  | run pc =>
    refine follows_run (Allocator.follows_call h ?_ r)
    rcases hreq with hreq | hreq | hreq
    · exact .inl hreq
    · exact .inr hreq
    · cases pc <;> cases hreq
  | noFork | confused => exact .refl h

/-- **`p-fork.cc`** keeps to its heap. -/
theorem tidy : Tidy program heap where
  bounds l h := by
    obtain ⟨b, pc⟩ := l
    cases pc with
    | run pc => exact Allocator.Ok.bounds h
    | _ =>
      obtain ⟨-, h2, h3, -⟩ := Bounds.Fits.base h
      exact ⟨h2, le_rfl, h3⟩
  call l h hreq r := follows_call h hreq r
  alloc l addr h hreq := by
    obtain ⟨b, pc⟩ := l
    cases pc with
    | run pc =>
      obtain ⟨h1, h2, h3, hrest⟩ := Allocator.tidy.alloc (b, pc) addr h hreq
      exact ⟨h1, h2, follows_run h3, hrest⟩
    | _ => cases hreq
  store l va n w h hreq := by
    obtain ⟨b, pc⟩ := l
    cases pc with
    | run pc =>
      exact (Allocator.tidy.store (b, pc) va n w h hreq).imp_left fun hc => ⟨hc.1, follows_run hc.2⟩
    | _ => cases hreq
  load l va n h hreq := by
    obtain ⟨b, pc⟩ := l
    cases pc with
    | run pc => cases pc <;> cases hreq
    | _ => cases hreq

theorem request_panic {pc : Pc} (hok : Ok b pc) (hreq : request pc = .panic) :
    pc = .noFork ∨ pc = .confused := by
  cases pc with
  | run pc => exact absurd hreq (Allocator.request_ne_panic hok)
  | noFork => exact .inl rfl
  | confused => exact .inr rfl
  | _ => cases hreq

end Fork

/-! ## `p-forkexit.cc` -/

namespace ForkExit

/-- The heap, until the program is about to end. -/
def base (b : Bounds) : Pc → ℕ
  | .exit | .done _ => STACK_PAGE
  | _ => b.dataTop / PAGESIZE

def top (b : Bounds) : Pc → ℕ
  | .exit | .done _ => STACK_PAGE
  | .yield v | .fork v | .alloc v | .look v | .clear v _ => v.heap_top / PAGESIZE
  | .touch v | .mark v => v.heap_top / PAGESIZE + 1
  | .spawn _ | .wait _ | .exited | .failed => b.dataTop / PAGESIZE

def Ok (b : Bounds) : Pc → Prop
  | .spawn _ | .wait _ | .exit | .done _ => b.Fits
  | .yield v | .fork v | .look v => HeapTop b v.heap_top
  | .clear v k => HeapTop b v.heap_top ∧ k < CONSOLE_COLUMNS
  | .alloc v | .touch v | .mark v => HeapTop b v.heap_top ∧ v.heap_top ≠ STACK_PAGE * PAGESIZE
  | .exited | .failed => False

def heap : Heap (Bounds × Pc) where
  ok x := Ok x.1 x.2
  base x := base x.1 x.2
  top x := top x.1 x.2
  known _ _ _ := True

variable {v : Vars} {gen : Generator}

/-- `rand(min, max)` does not fail. -/
theorem withRand_of {min max : ℤ} {f : ℤ → Generator → Pc} (Q : Pc → Prop) (n : ℕ)
    (hmin : Libc.INT_MIN ≤ min) (hmax : max ≤ Libc.INT_MAX) (hn : max = min + n)
    (hlt : n < Libc.RAND_MAX) (hf : ∀ r gen, Q (f r gen)) : Q (withRand min max gen f) := by
  obtain ⟨-, heq⟩ := Libc.randRange_eq (g := gen) hmin hmax hn hlt
  rw [withRand, heq]
  exact hf _ _

/-- The heap stays. -/
theorem follows_of {pc pc' : Pc} (hok : Ok b pc') (hbase : base b pc' = base b pc)
    (htop : top b pc' = top b pc) : Follows heap (b, pc) (b, pc') := by
  refine ⟨hok, htop.ge, fun u hlo hhi => ⟨?_, ?_⟩, fun _ _ _ _ => id⟩
  · exact hbase.ge.trans hlo
  · exact lt_of_lt_of_eq hhi htop

/-- The program forgets its heap. -/
theorem follows_last {pc pc' : Pc} (hok : Ok b pc') (hpc : pc' = .exit ∨ ∃ gen, pc' = .done gen)
    (htop : top b pc ≤ STACK_PAGE) : Follows heap (b, pc) (b, pc') := by
  have hempty : base b pc' = STACK_PAGE ∧ top b pc' = STACK_PAGE := by
    rcases hpc with rfl | ⟨gen, rfl⟩ <;> exact ⟨rfl, rfl⟩
  refine ⟨hok, htop.trans hempty.2.ge, fun u hlo hhi => ?_, fun _ _ _ _ => id⟩
  have hlo' : base b pc' ≤ u := hlo
  have hhi' : u < top b pc' := hhi
  omega

theorem follows_lastLoop {pc : Pc} (hb : b.Fits) (htop : top b pc ≤ STACK_PAGE) (gen : Generator) :
    Follows heap (b, pc) (b, lastLoop gen) := by
  rw [lastLoop]
  refine withRand_of (fun pc' => Follows heap (b, pc) (b, pc')) 35 (by decide) (by decide) (by decide)
    (by decide) fun r gen => ?_
  split_ifs
  · exact follows_last hb (.inl rfl) htop
  · exact follows_last hb (.inr ⟨gen, rfl⟩) htop

theorem follows_allocLoop (h : HeapTop b v.heap_top) : Follows heap (b, .yield v) (b, allocLoop b v) := by
  have htop : top b (.yield v) ≤ STACK_PAGE := h.pages.2.2.1
  rw [allocLoop]
  split_ifs with hne
  swap
  · exact follows_lastLoop h.fits htop v.gen
  rw [h.fits.bottom] at hne
  refine withRand_of (fun pc' => Follows heap (b, .yield v) (b, pc')) 108 (by decide) (by decide)
    (by decide) (by decide) fun x gen => ?_
  split_ifs
  · exact follows_of h rfl rfl
  refine withRand_of (fun pc' => Follows heap (b, .yield v) (b, pc')) (7 + min (v.nalloc / 4) 10)
    (by decide) ?_ (by omega) ?_ fun x gen => ?_
  · rw [Libc.INT_MAX]
    omega
  · rw [Libc.RAND_MAX]
    omega
  split_ifs
  · exact follows_of h rfl rfl
  · exact follows_last h.fits (.inl rfl) htop
  · exact follows_of ⟨h, hne⟩ rfl rfl

/-- Into the second loop, with the same heap. -/
theorem enters {pc : Pc} (h : HeapTop b v.heap_top) (hbase : base b pc = b.dataTop / PAGESIZE)
    (htop : top b pc = v.heap_top / PAGESIZE) : Follows heap (b, pc) (b, allocLoop b v) := by
  have hyield : Follows heap (b, pc) (b, .yield v) := follows_of h hbase.symm htop.symm
  exact hyield.trans (follows_allocLoop h)

theorem follows_spawnLoop {pc : Pc} (hb : b.Fits) (hbase : base b pc = b.dataTop / PAGESIZE)
    (htop : top b pc = b.dataTop / PAGESIZE) (gen : Generator) :
    Follows heap (b, pc) (b, spawnLoop gen) := by
  rw [spawnLoop]
  refine withRand_of (fun pc' => Follows heap (b, pc) (b, pc')) 18 (by decide) (by decide) (by decide)
    (by decide) fun x gen => ?_
  split_ifs <;> exact follows_of hb hbase.symm htop.symm

theorem follows_call {pc : Pc} (h : Ok b pc)
    (hreq : request pc = .getpid ∨ request pc = .yield ∨ request pc = .fork) (r : ℤ) :
    Follows heap (b, pc) (b, resume b pc r) := by
  cases pc with
  | spawn gen =>
    rw [resume]
    refine withRand_of (fun pc' => Follows heap (b, .spawn gen) (b, pc')) 2 (by decide) (by decide)
      (by decide) (by decide) fun choice gen' => ?_
    split_ifs
    · exact follows_last h (.inl rfl) (Bounds.Fits.base h).2.2.1
    · rw [alloc]
      refine withRand_of (fun pc' => Follows heap (b, .spawn gen) (b, pc')) 15 (by decide) (by decide)
        (by decide) (by decide) fun speed gen => ?_
      exact enters h.heapTop rfl rfl
    · exact follows_spawnLoop h rfl rfl gen'
    · rw [alloc]
      refine withRand_of (fun pc' => Follows heap (b, .spawn gen) (b, pc')) 15 (by decide) (by decide)
        (by decide) (by decide) fun speed gen => ?_
      exact enters h.heapTop rfl rfl
    · exact follows_spawnLoop h rfl rfl gen'
  | wait gen => exact follows_spawnLoop h rfl rfl gen
  | yield v => exact follows_allocLoop h
  | fork v =>
    rw [resume]
    split_ifs
    · refine withRand_of (fun pc' => Follows heap (b, .fork v) (b, pc')) 15 (by decide) (by decide)
        (by decide) (by decide) fun speed gen => ?_
      exact enters (v := { v with gen := gen, speed := speed }) h rfl rfl
    · exact enters h rfl rfl
  | done gen => exact follows_lastLoop h le_rfl gen
  | exit | exited | alloc v | touch v | mark v | look v | clear v k | failed =>
    rcases hreq with hreq | hreq | hreq <;> cases hreq

theorem Ok.bounds {pc : Pc} (h : Ok b pc) : 256 ≤ base b pc ∧ base b pc ≤ top b pc ∧
    top b pc ≤ STACK_PAGE := by
  cases pc with
  | spawn gen | wait gen =>
    obtain ⟨-, h2, h3, -⟩ := Bounds.Fits.base h
    exact ⟨h2, le_rfl, h3⟩
  | exit | done gen => exact ⟨show 256 ≤ STACK_PAGE by decide, le_rfl, le_rfl⟩
  | yield v | fork v | look v =>
    obtain ⟨h1, h2, h3, -⟩ := HeapTop.pages h
    exact ⟨h1, h2, h3⟩
  | alloc v | clear v k =>
    obtain ⟨h1, h2, h3, -⟩ := h.1.pages
    exact ⟨h1, h2, h3⟩
  | touch v | mark v =>
    obtain ⟨h1, h2, -, -⟩ := h.1.pages
    exact ⟨h1, h2.trans (Nat.le_succ _), (h.1.next h.2).2.2⟩
  | exited | failed => exact h.elim

/-- **`p-forkexit.cc`** keeps to its heap. -/
theorem tidy : Tidy program heap where
  bounds _ h := h.bounds
  call _ h hreq r := follows_call h hreq r
  alloc l addr h hreq := by
    obtain ⟨b, pc⟩ := l
    cases pc with
    | alloc v =>
      cases hreq
      obtain ⟨-, -, h3, h4⟩ := h.1.pages
      obtain ⟨-, -, hlt⟩ := h.1.next h.2
      refine ⟨h4, hlt, ?_, h, rfl, rfl, trivial, fun _ _ _ => id⟩
      change Follows heap (b, .alloc v) (b, resume b (.alloc v) (-1))
      rw [resume, if_neg (by decide)]
      split_ifs
      · exact follows_last h.1.fits (.inl rfl) h3
      · exact enters (v := { v with nalloc := v.nalloc - 4 }) h.1 rfl rfl
    | _ => cases hreq
  store l va n w h hreq := by
    obtain ⟨b, pc⟩ := l
    cases pc with
    | touch v =>
      cases hreq
      exact .inr ⟨h.1.pages.2.1, Nat.lt_succ_self _, h, rfl, rfl, fun _ _ => id⟩
    | mark v =>
      cases hreq
      obtain ⟨hnext, hpage, -⟩ := h.1.next h.2
      exact .inl ⟨consoleCell_page (by decide) (by decide), follows_of hnext rfl hpage⟩
    | clear v k =>
      cases hreq
      refine .inl ⟨consoleCell_page (by decide) h.2, ?_⟩
      change Follows heap (b, .clear v k) (b, resume b (.clear v k) 0)
      rw [resume]
      split_ifs with hk
      · exact follows_of ⟨h.1, hk⟩ rfl rfl
      · exact enters (v := { v with nalloc := (v.heap_top - b.dataTop) / PAGESIZE }) h.1 rfl rfl
    | _ => cases hreq
  load l va n h hreq := by
    obtain ⟨b, pc⟩ := l
    cases pc with
    | look v =>
      cases hreq
      refine ⟨.inl (consoleCell_page (by decide) (by decide)), fun r => ?_⟩
      change Follows heap (b, .look v) (b, resume b (.look v) r)
      rw [resume]
      split_ifs
      · exact follows_of ⟨h, by decide⟩ rfl rfl
      · exact enters (v := { v with nalloc := (v.heap_top - b.dataTop) / PAGESIZE }) h rfl rfl
    | _ => cases hreq

theorem spawnLoop_ok (h : b.Fits) (gen : Generator) : Ok b (spawnLoop gen) ∧
    base b (spawnLoop gen) = b.dataTop / PAGESIZE ∧ top b (spawnLoop gen) = b.dataTop / PAGESIZE := by
  rw [spawnLoop]
  refine withRand_of (fun pc => Ok b pc ∧ base b pc = b.dataTop / PAGESIZE ∧
    top b pc = b.dataTop / PAGESIZE) 18 (by decide) (by decide) (by decide) (by decide) fun x gen => ?_
  split_ifs <;> exact ⟨h, rfl, rfl⟩

theorem request_ne_panic {pc : Pc} (h : Ok b pc) : request pc ≠ .panic := by
  cases pc with
  | exited | failed => exact h.elim
  | _ => exact Request.noConfusion

end ForkExit

end CProj.WeensyOS
