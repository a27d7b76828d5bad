/-
  Looking up an address in the symbol table (`lookup_symbol`, k-hardware.cc), which `sort_symtab`
  (mkchickadeesymtab.cc) has put in order.

  The search halves a range of entries until it finds one that matches the address.  When it finds
  none, it ends between an entry that has sent it to the right and one that has sent it to the left
  (`lookupLoop_none`).  The order keeps the functions and objects from doing so, unless a smaller
  symbol lies between the address and the symbol around it; what is left are the entries in front
  of the functions and objects, which have an order of their own (`lookup_finds`).
-/
import CProj.Lib.Run
import Mathlib.Data.List.Sort
import Mathlib.Data.Nat.Digits.Defs

namespace CProj.Symtab

/-- `struct elf_symbol`: what sorting and looking up reads of it. -/
structure ElfSymbol where
  st_name : ℕ
  st_info : ℕ
  st_value : ℕ
  st_size : ℕ
  deriving DecidableEq, Repr

def ELF_STT_MASK : ℕ := 0x0F
def ELF_STT_FUNC : ℕ := 0x02

/-! ## The order -/

/-- The type of the symbol is above `ELF_STT_FUNC`: a section, a file. -/
def special (s : ElfSymbol) : Bool := s.st_info &&& ELF_STT_MASK > ELF_STT_FUNC

def symbolLess (a b : ElfSymbol) : Bool :=
  let asp := special a
  let bsp := special b
  if asp || bsp then asp && !bsp
  else a.st_value < b.st_value || (a.st_value == b.st_value && a.st_size < b.st_size)

/-- The loop of `sort_symtab`: no entry is less than the one before it. -/
def inOrder : List ElfSymbol → Bool
  | a :: b :: syms => !symbolLess b a && inOrder (b :: syms)
  | _ => true

/-- `sort_symtab`, which leaves the first entry where it is. -/
def sortSymtab : List ElfSymbol → List ElfSymbol
  | [] => []
  | s :: syms => if inOrder syms then s :: syms else s :: syms.mergeSort fun a b => !symbolLess b a

/-! ## The search -/

inductive Fault where
  | outOfBounds
  | running
  deriving DecidableEq, Repr

/-- `symtab.sym[m]` -/
def entry (sym : List ElfSymbol) (m : ℕ) : Except Fault ElfSymbol :=
  match sym[m]? with
  | some s => .ok s
  | none => .error .outOfBounds

/-- The test of `lookup_symbol` on the entry `m`. -/
def matchesAddr (sym : List ElfSymbol) (addr m : ℕ) (s : ElfSymbol) : Except Fault Bool := do
  if s.st_value ≤ addr then
    if s.st_size ≠ 0 then return addr < (s.st_value + s.st_size) % 2 ^ 64
    else if m + 1 = sym.length then return true
    else return addr < (← entry sym (m + 1)).st_value
  else return false

/-- The loop of `lookup_symbol`: the start of the symbol that it reports, and its name as an offset
    in the string table. -/
def lookupLoop (sym : List ElfSymbol) (addr : ℕ) : ℕ → ℕ → ℕ → Except Fault (Option (ℕ × ℕ))
  | 0, _, _ => .error .running
  | fuel + 1, l, r =>
    if l < r then do
      let m := l + (r - l) >>> 1
      let s ← entry sym m
      if ← matchesAddr sym addr m s then return some (s.st_name, s.st_value)
      else if s.st_value < addr then lookupLoop sym addr fuel (m + 1) r
      else lookupLoop sym addr fuel l m
    else return none

/-- `lookup_symbol` -/
def lookupSymbol (sym : List ElfSymbol) (addr : ℕ) : Except Fault (Option (ℕ × ℕ)) :=
  lookupLoop sym addr (sym.length + 1) 0 sym.length

/-! ## What is promised -/

/-- The entry `m` covers the address: by its size, or up to the next entry when its size is 0. -/
def Covers (sym : List ElfSymbol) (addr m : ℕ) (s : ElfSymbol) : Prop :=
  sym[m]? = some s ∧ s.st_value ≤ addr ∧
    if s.st_size ≠ 0 then addr < s.st_value + s.st_size
    else ∀ t, sym[m + 1]? = some t → addr < t.st_value

/-- The lookup reports an entry that covers the address. -/
def Finds (sym : List ElfSymbol) (addr : ℕ) : Prop :=
  ∃ m s, lookupSymbol sym addr = .ok (some (s.st_name, s.st_value)) ∧ Covers sym addr m s

/-- A function or object with the address in its range. -/
def InSymbol (sym : List ElfSymbol) (addr i : ℕ) (s : ElfSymbol) : Prop :=
  sym[i]? = some s ∧ special s = false ∧ s.st_value ≤ addr ∧ addr < s.st_value + s.st_size

/-- Nothing stands between the address and the symbol `i`. -/
structure InSight (sym : List ElfSymbol) (addr i : ℕ) : Prop where
  /-- no symbol that comes later, and starts at or below the address, ends before it -/
  nested : ∀ (k : ℕ) (s : ElfSymbol), i < k → sym[k]? = some s → s.st_value ≤ addr →
    s.st_size = 0 ∨ addr < s.st_value + s.st_size
  /-- none of these symbols reaches the end of the address space -/
  noWrap : ∀ (k : ℕ) (s : ElfSymbol), i ≤ k → sym[k]? = some s → s.st_value ≤ addr →
    s.st_value + s.st_size < 2 ^ 64
  /-- a symbol of size 0 that starts at the address is not followed by another one that does -/
  alone : ∀ (k : ℕ) (s t : ElfSymbol), 0 < k → sym[k]? = some s → special s = false →
    s.st_value = addr → s.st_size = 0 → sym[k + 1]? = some t → t.st_value ≠ addr
  /-- a special symbol that starts at the address covers it by its size -/
  start : ∀ (k : ℕ) (s : ElfSymbol), sym[k]? = some s → special s = true → s.st_value = addr →
    s.st_size ≠ 0 ∧ addr < (s.st_value + s.st_size) % 2 ^ 64
  /-- in front of a special symbol above the address, the null entry or a symbol below the address
      covers it -/
  before : ∀ (k : ℕ) (s t : ElfSymbol), sym[k]? = some s → sym[k + 1]? = some t →
    special t = true → addr < t.st_value → k = 0 ∨ s.st_value < addr →
    s.st_value ≤ addr ∧ (s.st_size = 0 ∨ addr < (s.st_value + s.st_size) % 2 ^ 64)

variable {sym syms : List ElfSymbol} {addr l r m : ℕ} {s t : ElfSymbol}

/-! ## The order of a sorted table -/

theorem symbolLess_eq_false {a b : ElfSymbol} : symbolLess b a = false ↔
    (special b = true → special a = true) ∧ (special a = false →
      a.st_value < b.st_value ∨ a.st_value = b.st_value ∧ a.st_size ≤ b.st_size) := by
  cases ha : special a <;> cases hb : special b <;> simp [symbolLess, ha, hb]
  omega

theorem symbolLess_trans {a b c : ElfSymbol} (h : symbolLess b a = false)
    (h' : symbolLess c b = false) : symbolLess c a = false := by
  rw [symbolLess_eq_false] at *
  refine ⟨fun hc => h.1 (h'.1 hc), fun ha => ?_⟩
  have hb : special b = false := by
    rw [← Bool.not_eq_true]
    intro hb
    rw [h.1 hb] at ha
    cases ha
  have hab := h.2 ha
  have hbc := h'.2 hb
  omega

theorem symbolLess_total (a b : ElfSymbol) : symbolLess b a = false ∨ symbolLess a b = false := by
  rw [symbolLess_eq_false, symbolLess_eq_false]
  cases special a <;> cases special b <;> simp
  omega

theorem pairwise_of_inOrder : ∀ {syms : List ElfSymbol}, inOrder syms = true →
    syms.Pairwise fun a b => symbolLess b a = false
  | [], _ => List.Pairwise.nil
  | [a], _ => List.pairwise_singleton _ a
  | a :: b :: syms, h => by
    rw [inOrder, Bool.and_eq_true, Bool.not_eq_true'] at h
    have hrest := pairwise_of_inOrder h.2
    refine List.pairwise_cons.2 ⟨fun c hc => ?_, hrest⟩
    rcases List.mem_cons.1 hc with rfl | hc
    · exact h.1
    · exact symbolLess_trans h.1 ((List.pairwise_cons.1 hrest).1 c hc)

/-- Behind its first entry, the table is in order. -/
theorem sortSymtab_pairwise (s : ElfSymbol) (syms : List ElfSymbol) :
    ∃ ts, sortSymtab (s :: syms) = s :: ts ∧ ts.Pairwise fun a b => symbolLess b a = false := by
  rw [sortSymtab]
  split_ifs with h
  · exact ⟨syms, rfl, pairwise_of_inOrder h⟩
  · refine ⟨_, rfl, ?_⟩
    have hsorted : (syms.mergeSort fun a b => !symbolLess b a).Pairwise
        fun a b => (!symbolLess b a) = true := by
      refine List.pairwise_mergeSort (fun a b c => ?_) (fun a b => ?_) syms
      · simp only [Bool.not_eq_true']
        exact symbolLess_trans
      · simp only [Bool.or_eq_true, Bool.not_eq_true']
        exact symbolLess_total a b
    exact hsorted.imp fun h => by simpa using h

/-- The order of two entries behind the first one. -/
theorem sorted_le {k k' : ℕ} (hpos : 0 < k) (hle : k ≤ k') (hk : (sortSymtab syms)[k]? = some s)
    (hk' : (sortSymtab syms)[k']? = some t) : (special t = true → special s = true) ∧
      (special s = false →
        s.st_value < t.st_value ∨ s.st_value = t.st_value ∧ s.st_size ≤ t.st_size) := by
  rcases Nat.eq_or_lt_of_le hle with rfl | hlt
  · obtain rfl : s = t := Option.some_inj.1 (hk.symm.trans hk')
    exact ⟨id, fun _ => .inr ⟨rfl, le_rfl⟩⟩
  · cases syms with
    | nil => cases hk
    | cons s₀ syms =>
      obtain ⟨ts, hts, hpair⟩ := sortSymtab_pairwise s₀ syms
      obtain ⟨k, rfl⟩ : ∃ n, k = n + 1 := ⟨k - 1, by omega⟩
      obtain ⟨k', rfl⟩ : ∃ n, k' = n + 1 := ⟨k' - 1, by omega⟩
      rw [hts, List.getElem?_cons_succ] at hk hk'
      obtain ⟨hlen, rfl⟩ := List.getElem?_eq_some_iff.1 hk
      obtain ⟨hlen', rfl⟩ := List.getElem?_eq_some_iff.1 hk'
      exact symbolLess_eq_false.1 (List.pairwise_iff_getElem.1 hpair k k' hlen hlen' (by omega))

/-! ## The search -/

theorem entry_ok (h : sym[m]? = some s) : entry sym m = .ok s := by rw [entry, h]

/-- The entry `m` starts at or below the address, which is behind it: behind its end, or not before
    the start of the next entry when its size is 0. -/
def Behind (sym : List ElfSymbol) (addr m : ℕ) (s : ElfSymbol) : Prop :=
  if s.st_size ≠ 0 then (s.st_value + s.st_size) % 2 ^ 64 ≤ addr
  else ∃ t, sym[m + 1]? = some t ∧ t.st_value ≤ addr

/-- What the test finds is covered; otherwise the address is below or behind the entry. -/
theorem matchesAddr_ok (addr : ℕ) (hm : sym[m]? = some s) : ∃ b, matchesAddr sym addr m s = .ok b ∧
    (b = true → Covers sym addr m s) ∧
      (b = false → s.st_value ≤ addr → Behind sym addr m s) := by
  have hlen : m < sym.length := (List.getElem?_eq_some_iff.1 hm).1
  unfold matchesAddr Behind
  by_cases hle : s.st_value ≤ addr
  swap
  · rw [if_neg hle]
    exact ⟨false, rfl, fun h => absurd h Bool.false_ne_true, fun _ h => absurd h hle⟩
  rw [if_pos hle]
  by_cases hsize : s.st_size ≠ 0
  · simp only [if_pos hsize]
    refine ⟨_, rfl, fun h => ⟨hm, hle, ?_⟩, fun h _ => Nat.le_of_not_lt (of_decide_eq_false h)⟩
    rw [if_pos hsize]
    exact (of_decide_eq_true h).trans_le (Nat.mod_le _ _)
  · simp only [if_neg hsize]
    by_cases hlast : m + 1 = sym.length
    · rw [if_pos hlast]
      refine ⟨true, rfl, fun _ => ⟨hm, hle, ?_⟩, fun h => absurd h.symm Bool.false_ne_true⟩
      rw [if_neg hsize, hlast, List.getElem?_length]
      intro t ht
      cases ht
    · obtain ⟨t, ht⟩ : ∃ t, sym[m + 1]? = some t :=
        ⟨_, List.getElem?_eq_getElem (show m + 1 < sym.length by omega)⟩
      rw [if_neg hlast, entry_ok ht]
      refine ⟨_, rfl, fun h => ⟨hm, hle, ?_⟩, fun h _ => ⟨t, ht, ?_⟩⟩
      · rw [if_neg hsize]
        intro t' ht'
        rw [ht, Option.some_inj] at ht'
        exact ht' ▸ of_decide_eq_true h
      · exact Nat.le_of_not_lt (of_decide_eq_false h)

/-- A round of the loop. -/
theorem lookupLoop_succ (sym : List ElfSymbol) (addr fuel : ℕ) (hlt : l < r) (hr : r ≤ sym.length) :
    ∃ m s b, m = l + (r - l) / 2 ∧ sym[m]? = some s ∧ (b = true → Covers sym addr m s) ∧
      (b = false → s.st_value ≤ addr → Behind sym addr m s) ∧
      lookupLoop sym addr (fuel + 1) l r =
        if b = true then .ok (some (s.st_name, s.st_value))
        else if s.st_value < addr then lookupLoop sym addr fuel (m + 1) r
        else lookupLoop sym addr fuel l m := by
  obtain ⟨m, hm⟩ : ∃ m, m = l + (r - l) >>> 1 := ⟨_, rfl⟩
  have hmid : m = l + (r - l) / 2 := by rw [hm, Nat.shiftRight_eq_div_pow, pow_one]
  obtain ⟨s, hs⟩ : ∃ s, sym[m]? = some s :=
    ⟨_, List.getElem?_eq_getElem (show m < sym.length by omega)⟩
  obtain ⟨b, hb, hcovers, hmisses⟩ := matchesAddr_ok addr hs
  refine ⟨m, s, b, hmid, hs, hcovers, hmisses, ?_⟩
  rw [lookupLoop, if_pos hlt]
  simp only [← hm]
  rw [entry_ok hs, ok_bind, hb, ok_bind]
  rfl

/-- The search ends, and reports an entry that covers the address or none. -/
theorem lookupLoop_reports (sym : List ElfSymbol) (addr : ℕ) : ∀ (fuel : ℕ) {l r : ℕ},
    r - l < fuel → r ≤ sym.length → lookupLoop sym addr fuel l r = .ok none ∨
      ∃ m s, lookupLoop sym addr fuel l r = .ok (some (s.st_name, s.st_value)) ∧ Covers sym addr m s
  | 0, _, _, h, _ => absurd h (Nat.not_lt_zero _)
  | fuel + 1, l, r, hfuel, hr => by
    by_cases hlt : l < r
    swap
    · exact .inl (by rw [lookupLoop, if_neg hlt]; rfl)
    obtain ⟨m, s, b, hm, -, hcovers, -, heq⟩ := lookupLoop_succ sym addr fuel hlt hr
    rw [heq]
    split_ifs with hb hgo
    · exact .inr ⟨m, s, rfl, hcovers hb⟩
    · exact lookupLoop_reports sym addr fuel (by omega) hr
    · exact lookupLoop_reports sym addr fuel (by omega) (by omega)

/-- The search goes to the right of the entry `m`. -/
def GoesRight (sym : List ElfSymbol) (addr m : ℕ) (s : ElfSymbol) : Prop :=
  sym[m]? = some s ∧ s.st_value < addr ∧ Behind sym addr m s

/-- The search goes to the left of the entry `m`. -/
def GoesLeft (sym : List ElfSymbol) (addr m : ℕ) (s : ElfSymbol) : Prop :=
  sym[m]? = some s ∧ addr ≤ s.st_value ∧ (s.st_value ≤ addr → Behind sym addr m s)

/-- The search has come to `r` from the right. It looks at the first entry only after the second. -/
structure FromRight (sym : List ElfSymbol) (addr r : ℕ) : Prop where
  left : r = sym.length ∨ ∃ s, GoesLeft sym addr r s
  second : r = 0 → sym.length ≤ 1 ∨ ∃ s, GoesLeft sym addr 1 s

/-- A search that finds nothing ends between an entry that sends it to the right and one that sends
    it to the left. -/
theorem lookupLoop_none : ∀ (fuel : ℕ) {l r : ℕ}, l ≤ r → r ≤ sym.length →
    (l = 0 ∨ ∃ s, GoesRight sym addr (l - 1) s) → FromRight sym addr r →
    lookupLoop sym addr fuel l r = .ok none →
    ∃ c, (c = 0 ∨ ∃ s, GoesRight sym addr (c - 1) s) ∧ FromRight sym addr c
  | 0, _, _, _, _, _, _, h => by cases h
  | fuel + 1, l, r, hle, hlen, hright, hleft, h => by
    by_cases hlt : l < r
    swap
    · obtain rfl : l = r := by omega
      exact ⟨l, hright, hleft⟩
    obtain ⟨m, s, b, hm, hs, -, hmisses, heq⟩ := lookupLoop_succ sym addr fuel hlt hlen
    rw [heq] at h
    split_ifs at h with hb hgo
    · cases h
    · have hbehind := hmisses (Bool.eq_false_of_not_eq_true hb) hgo.le
      have hgoes : GoesRight sym addr (m + 1 - 1) s := ⟨hs, hgo, hbehind⟩
      exact lookupLoop_none fuel (by omega) hlen (.inr ⟨s, hgoes⟩) hleft h
    · have hmiss : GoesLeft sym addr m s :=
        ⟨hs, Nat.le_of_not_lt hgo, hmisses (Bool.eq_false_of_not_eq_true hb)⟩
      refine lookupLoop_none fuel (by omega) (by omega) hright ⟨.inr ⟨s, hmiss⟩, fun h0 => ?_⟩ h
      obtain rfl : r = 1 := by omega
      exact hleft.left.imp (fun h1 => h1.ge) id

/-! ## Looking up -/

section
variable {i k : ℕ} {u : ElfSymbol}

/-- The symbol itself, and the later ones with a size, cover the address. -/
theorem InSight.not_behind (h : InSight sym addr i) (hi : InSymbol sym addr i s) (hik : i ≤ k)
    (hk : sym[k]? = some t) (hle : t.st_value ≤ addr) (hsize : t.st_size ≠ 0) :
    ¬ Behind sym addr k t := by
  have hin : addr < t.st_value + t.st_size := by
    rcases Nat.eq_or_lt_of_le hik with rfl | hlt
    · obtain rfl : s = t := Option.some_inj.1 (hi.1.symm.trans hk)
      exact hi.2.2.2
    · exact (h.nested k t hlt hk hle).resolve_left hsize
  rw [Behind, if_pos hsize, Nat.mod_eq_of_lt (h.noWrap k t hik hk hle)]
  omega

/-- A function or object that starts at the address is found when it is looked at. -/
theorem InSight.not_left (h : InSight (sortSymtab syms) addr i)
    (hi : InSymbol (sortSymtab syms) addr i s) (hpos : 0 < k) (hspecial : special t = false)
    (hval : t.st_value = addr) : ¬ GoesLeft (sortSymtab syms) addr k t := by
  rintro ⟨hk, -, hbehind⟩
  have hbehind := hbehind hval.le
  by_cases hsize : t.st_size ≠ 0
  · rcases Nat.le_total i k with hik | hki
    · exact h.not_behind hi hik hk hval.le hsize hbehind
    · -- a symbol before it, with the same start, is not larger
      have horder := (sorted_le hpos hki hk hi.1).2 hspecial
      have hle := hi.2.2.1
      have hwrap := h.noWrap i s le_rfl hi.1 hle
      rw [Behind, if_pos hsize, Nat.mod_eq_of_lt (by omega)] at hbehind
      omega
  · rw [Behind, if_neg hsize] at hbehind
    obtain ⟨u, hu, hle⟩ := hbehind
    have horder := (sorted_le hpos (Nat.le_succ k) hk hu).2 hspecial
    exact h.alone k t u hpos hk hspecial hval (not_not.1 hsize) hu (by omega)

/-- The entry before a special symbol does not send the search to that symbol, which sends it back. -/
theorem InSight.not_special (h : InSight sym addr i) (hk : sym[k]? = some t)
    (hbehind : t.st_value ≤ addr → Behind sym addr k t) (hbelow : k = 0 ∨ t.st_value < addr)
    (hleft : GoesLeft sym addr (k + 1) u) : special u = false := by
  rw [← Bool.not_eq_true]
  intro hspecial
  obtain ⟨hu, hge, hbehind'⟩ := hleft
  have hgt : addr < u.st_value := by
    refine lt_of_le_of_ne hge fun hval => ?_
    obtain ⟨hsize, hin⟩ := h.start (k + 1) u hu hspecial hval.symm
    have hend := hbehind' hval.ge
    rw [Behind, if_pos hsize] at hend
    omega
  obtain ⟨hle, hin⟩ := h.before k t u hk hu hspecial hgt hbelow
  have hend := hbehind hle
  unfold Behind at hend
  split_ifs at hend with hsize
  · have hin := hin.resolve_left hsize
    omega
  · obtain ⟨u', hu', hle'⟩ := hend
    obtain rfl : u = u' := Option.some_inj.1 (hu.symm.trans hu')
    omega

/-- A symbol from `i` on does not send the search to the right, to the end or to a start above the
    address. -/
theorem InSight.not_right (h : InSight sym addr i) (hi : InSymbol sym addr i s) (hik : i ≤ k)
    (hnext : ∀ u, sym[k + 1]? = some u → addr < u.st_value) : ¬ GoesRight sym addr k t := by
  rintro ⟨hk, hlt, hbehind⟩
  by_cases hsize : t.st_size ≠ 0
  · exact h.not_behind hi hik hk hlt.le hsize hbehind
  · rw [Behind, if_neg hsize] at hbehind
    obtain ⟨u, hu, hle⟩ := hbehind
    exact absurd (hnext u hu) (Nat.not_lt_of_le hle)

/-- The second entry does not send the search to the first one, which does not match. -/
theorem InSight.not_first (h : InSight (sortSymtab syms) addr i)
    (hi : InSymbol (sortSymtab syms) addr i s) : ¬ FromRight (sortSymtab syms) addr 0 := by
  intro hc
  have hlen : i < (sortSymtab syms).length := (List.getElem?_eq_some_iff.1 hi.1).1
  obtain ⟨t, ht, hge, hbehind⟩ := hc.left.resolve_left (by omega)
  have hi0 : i ≠ 0 := by
    rintro rfl
    obtain rfl : s = t := Option.some_inj.1 (hi.1.symm.trans ht)
    have hle := hi.2.2.1
    have hin := hi.2.2.2
    exact h.not_behind hi le_rfl ht hle (by omega) (hbehind hle)
  obtain ⟨u, hleft⟩ := (hc.second rfl).resolve_left (by omega)
  have hspecial := h.not_special ht hbehind (.inl rfl) hleft
  have horder := (sorted_le one_pos (Nat.one_le_iff_ne_zero.2 hi0) hleft.1 hi.1).2 hspecial
  have hle := hi.2.2.1
  have hge' := hleft.2.1
  exact h.not_left hi one_pos hspecial (by omega) hleft

end

/-- **Looking up an address** in a table that `sort_symtab` has put in order. -/
theorem lookup_finds (syms : List ElfSymbol) (addr : ℕ) :
    (lookupSymbol (sortSymtab syms) addr = .ok none ∨ Finds (sortSymtab syms) addr) ∧
      ∀ i s, InSymbol (sortSymtab syms) addr i s → InSight (sortSymtab syms) addr i →
        Finds (sortSymtab syms) addr := by
  have hreports : lookupSymbol (sortSymtab syms) addr = .ok none ∨
      Finds (sortSymtab syms) addr := by
    rcases lookupLoop_reports (sortSymtab syms) addr ((sortSymtab syms).length + 1)
      (Nat.sub_le _ 0 |>.trans_lt (Nat.lt_succ_self _)) le_rfl with h | ⟨m, s, h, hcovers⟩
    · exact .inl h
    · exact .inr ⟨m, s, h, hcovers⟩
  refine ⟨hreports, fun i s hi h => hreports.resolve_left fun hnone => ?_⟩
  obtain ⟨c, hright, hleft⟩ := lookupLoop_none _ (Nat.zero_le _) le_rfl (.inl rfl)
    ⟨.inl rfl, fun h0 => .inl (h0.le.trans (Nat.zero_le 1))⟩ hnone
  have hlen : i < (sortSymtab syms).length := (List.getElem?_eq_some_iff.1 hi.1).1
  cases c with
  | zero => exact h.not_first hi hleft
  | succ c =>
    obtain ⟨t, hgoes⟩ := hright.resolve_left (Nat.succ_ne_zero c)
    rw [Nat.add_sub_cancel] at hgoes
    rcases hleft.left with hend | ⟨u, hleft⟩
    · refine h.not_right hi (by omega) (fun u hu => ?_) hgoes
      rw [hend, List.getElem?_length] at hu
      cases hu
    · have hspecial := h.not_special hgoes.1 (fun _ => hgoes.2.2) (.inr hgoes.2.1) hleft
      have hne : u.st_value ≠ addr := fun hval => h.not_left hi (Nat.succ_pos c) hspecial hval hleft
      have hgt : addr < u.st_value := lt_of_le_of_ne hleft.2.1 hne.symm
      have hic : i ≤ c := by
        by_contra hci
        have horder := (sorted_le (Nat.succ_pos c) (by omega) hleft.1 hi.1).2 hspecial
        have hle := hi.2.2.1
        omega
      refine h.not_right hi hic (fun u' hu' => ?_) hgoes
      obtain rfl : u = u' := Option.some_inj.1 (hleft.1.symm.trans hu')
      exact hgt

/-- Two sections, of which one starts above the address, and two functions. -/
def twoSections : List ElfSymbol :=
  [⟨0, 0, 0, 0⟩, ⟨0, 3, 0x100, 0⟩, ⟨0, 3, 0x400, 0⟩, ⟨1, 2, 0x100, 0x20⟩, ⟨5, 2, 0x120, 0x10⟩]

theorem inSight_twoSections : InSight (sortSymtab twoSections) 0x110 3 := by
  have hentry : ∀ {P : ℕ → ElfSymbol → Prop},
      (∀ x ∈ (sortSymtab twoSections).zipIdx, P x.2 x.1) →
      ∀ (k : ℕ) (s : ElfSymbol), (sortSymtab twoSections)[k]? = some s → P k s :=
    fun h k s hk => h (s, k) (List.mem_zipIdx_iff_getElem?.2 hk)
  constructor
  · have := hentry (P := fun k s => 3 < k → s.st_value ≤ 0x110 →
      s.st_size = 0 ∨ 0x110 < s.st_value + s.st_size) (by decide)
    exact fun k s hk hs => this k s hs hk
  · have := hentry (P := fun k s => 3 ≤ k → s.st_value ≤ 0x110 → s.st_value + s.st_size < 2 ^ 64)
      (by decide)
    exact fun k s hk hs => this k s hs hk
  · have := hentry (P := fun _ s => s.st_value ≠ 0x110) (by decide)
    exact fun k s t _ hs _ hval => absurd hval (this k s hs)
  · have := hentry (P := fun _ s => s.st_value ≠ 0x110) (by decide)
    exact fun k s hs _ hval => absurd hval (this k s hs)
  · have := hentry (P := fun k s => k = 0 ∨ s.st_value < 0x110 → s.st_value ≤ 0x110 ∧
      (s.st_size = 0 ∨ 0x110 < (s.st_value + s.st_size) % 2 ^ 64)) (by decide)
    exact fun k s t hs _ _ _ h => this k s hs h

theorem lookup_finds_twoSections : InSymbol (sortSymtab twoSections) 0x110 3 ⟨1, 2, 0x100, 0x20⟩ ∧
    Finds (sortSymtab twoSections) 0x110 := by
  have hin : InSymbol (sortSymtab twoSections) 0x110 3 ⟨1, 2, 0x100, 0x20⟩ :=
    ⟨by decide, by decide, by decide, by decide⟩
  exact ⟨hin, (lookup_finds twoSections 0x110).2 3 _ hin inSight_twoSections⟩

/-- The lookup at the address finds nothing, though the entry `i` has it in its range. -/
def Misses (sym : List ElfSymbol) (addr i : ℕ) : Prop :=
  (∃ s, InSymbol (sortSymtab sym) addr i s) ∧ lookupSymbol (sortSymtab sym) addr = .ok none

/-- The null entry. -/
def nullSymbol : ElfSymbol := ⟨0, 0, 0, 0⟩

/-- A table for each condition of `InSight`, of which two have two sides. -/
theorem lookup_misses :
    -- small symbols in a large one
    Misses [nullSymbol, ⟨1, 2, 0x100, 0x100⟩, ⟨5, 2, 0x110, 8⟩, ⟨8, 2, 0x120, 8⟩,
      ⟨11, 2, 0x130, 8⟩] 0x180 1 ∧
    -- a symbol that ends behind the address space
    Misses [nullSymbol, ⟨1, 2, 0x100, 2 ^ 64 - 0x10⟩] 0x110 1 ∧
    -- two symbols at the address, one of size 0
    Misses [nullSymbol, ⟨1, 2, 0x100, 0⟩, ⟨5, 2, 0x100, 0x20⟩] 0x100 2 ∧
    -- a section that starts at the address
    Misses [nullSymbol, ⟨0, 3, 0x110, 0⟩, ⟨1, 2, 0x100, 0x20⟩] 0x110 2 ∧
    -- a special symbol that ends below the address, and a section above it
    Misses [nullSymbol, ⟨0, 6, 0x80, 8⟩, ⟨0, 3, 0x300, 0⟩, ⟨1, 2, 0x100, 0x20⟩] 0x110 3 ∧
    -- a first entry and a section above the address
    Misses [⟨0, 0, 0x200, 0⟩, ⟨0, 3, 0x300, 0⟩, ⟨1, 2, 0x100, 0x20⟩] 0x110 2 := by
  refine ⟨⟨⟨_, rfl, ?_⟩, ?_⟩, ⟨⟨_, rfl, ?_⟩, ?_⟩, ⟨⟨_, rfl, ?_⟩, ?_⟩, ⟨⟨_, rfl, ?_⟩, ?_⟩,
    ⟨⟨_, rfl, ?_⟩, ?_⟩, ⟨_, rfl, ?_⟩, ?_⟩ <;> decide

end CProj.Symtab
