/-
  Stacks of words that grow downwards.

  A processor has registers of type `ρ` and a memory of 8-byte words by their addresses.  `build`
  executes stores to the stack in turn (`Pushed`), and `unload` pops a list of registers.
  `build_spec` and `unload_spec` say what they do to the processor at once, and `WordsAt` what lies
  in memory between them.
-/
import Mathlib.Data.List.Nodup
import Mathlib.Logic.Function.Basic

namespace CProj

/-- Registers, and the words of memory by their addresses. -/
@[ext]
structure Words (ρ : Type*) where
  reg : ρ → ℕ
  mem : ℕ → ℕ

/-- What an instruction puts on the stack. -/
inductive Pushed (ρ : Type*) where
  | reg (r : ρ)
  | imm (w : ℕ)
  /-- the stack pointer moves, and the word stays what it is -/
  | skip
  deriving DecidableEq

variable {ρ : Type*} [DecidableEq ρ] (sp : ρ) (fit : ρ → ℕ → ℕ)

/-- The word of a slot, for the registers `f`. -/
def Pushed.value (f : ρ → ℕ) : Pushed ρ → Option ℕ
  | .reg r => some (f r)
  | .imm w => some w
  | .skip => none

def Pushed.push (c : Words ρ) (x : Pushed ρ) : Words ρ where
  reg := Function.update c.reg sp (c.reg sp - 8)
  mem := match x.value c.reg with
    | some w => Function.update c.mem (c.reg sp - 8) w
    | none => c.mem

def build (xs : List (Pushed ρ)) (c : Words ρ) : Words ρ := xs.foldl (Pushed.push sp) c

/-- `pop r`, where `fit r` is what the register `r` keeps of a word. -/
def pop (c : Words ρ) (r : ρ) : Words ρ where
  reg := Function.update (Function.update c.reg r (fit r (c.mem (c.reg sp)))) sp (c.reg sp + 8)
  mem := c.mem

def unload (rs : List ρ) (c : Words ρ) : Words ρ := rs.foldl (pop sp fit) c

/-- The words at `a` are `ws`; nothing is said about those where `ws` has `none`. -/
def WordsAt (m : ℕ → ℕ) (a : ℕ) (ws : List (Option ℕ)) : Prop :=
  ∀ k w, ws[k]? = some (some w) → m (a + 8 * k) = w

variable {sp fit} {c : Words ρ} {m m' : ℕ → ℕ} {a : ℕ} {xs : List (Pushed ρ)} {rs : List ρ}
  {ws vs : List (Option ℕ)} {r : ρ}

/-! ## Words in memory -/

theorem wordsAt_nil : WordsAt m a [] := by
  intro k w h
  rw [List.getElem?_nil] at h
  cases h

theorem wordsAt_cons {x : Option ℕ} :
    WordsAt m a (x :: ws) ↔ (∀ w, x = some w → m a = w) ∧ WordsAt m (a + 8) ws := by
  constructor
  · intro h
    refine ⟨fun w hw => h 0 w (by rw [hw]; rfl), fun k w hk => ?_⟩
    have := h (k + 1) w hk
    rwa [Nat.mul_add, Nat.mul_one, Nat.add_comm (8 * k), ← Nat.add_assoc] at this
  · rintro ⟨h0, h⟩ k w hk
    cases k with
    | zero => exact h0 w (Option.some.inj hk)
    | succ k =>
      have := h k w hk
      rwa [Nat.add_assoc, Nat.add_comm 8, ← Nat.mul_succ] at this

theorem wordsAt_append :
    WordsAt m a (ws ++ vs) ↔ WordsAt m a ws ∧ WordsAt m (a + 8 * ws.length) vs := by
  induction ws generalizing a with
  | nil => exact ⟨fun h => ⟨wordsAt_nil, h⟩, And.right⟩
  | cons x ws ih =>
    rw [List.cons_append, wordsAt_cons, wordsAt_cons, ih, and_assoc, List.length_cons]
    rw [show a + 8 * (ws.length + 1) = a + 8 + 8 * ws.length by omega]

theorem WordsAt.congr (h : WordsAt m a ws) (heq : ∀ k < ws.length, m' (a + 8 * k) = m (a + 8 * k)) :
    WordsAt m' a ws := by
  intro k w hk
  rw [heq k (List.getElem?_eq_some_iff.1 hk).1]
  exact h k w hk

/-! ## Stores to the stack -/

/-- The address `y` is not that of a word in `ws`. -/
def Spared (a : ℕ) (ws : List (Option ℕ)) (y : ℕ) : Prop :=
  ∀ k w, ws[k]? = some (some w) → y ≠ a + 8 * k

theorem spared_of_outside {y : ℕ} (h : y < a ∨ a + 8 * ws.length ≤ y) : Spared a ws y := by
  intro k w hk
  have := (List.getElem?_eq_some_iff.1 hk).1
  omega

/-- **What a block of stores does.** -/
theorem build_spec (hsp : Pushed.reg sp ∉ xs) (ha : c.reg sp = a + 8 * xs.length) :
    (build sp xs c).reg = Function.update c.reg sp a ∧
      WordsAt (build sp xs c).mem a (xs.reverse.map (Pushed.value c.reg)) ∧
      ∀ y, Spared a (xs.reverse.map (Pushed.value c.reg)) y → (build sp xs c).mem y = c.mem y := by
  induction xs generalizing c with
  | nil =>
    refine ⟨?_, wordsAt_nil, fun _ _ => rfl⟩
    have hbase : c.reg sp = a := ha
    rw [← hbase, Function.update_eq_self]
    rfl
  | cons x xs ih =>
    rw [List.length_cons] at ha
    rw [List.mem_cons, not_or] at hsp
    have hpush : (Pushed.push sp c x).reg sp = a + 8 * xs.length := by
      change Function.update c.reg sp (c.reg sp - 8) sp = _
      rw [Function.update_self]
      omega
    obtain ⟨hreg, hholds, hmem⟩ := ih hsp.2 hpush
    have hvalue : ∀ y ∈ xs, Pushed.value (Pushed.push sp c x).reg y = Pushed.value c.reg y := by
      intro y hy
      cases y with
      | reg q =>
        have hq : q ≠ sp := fun heq => hsp.2 (heq ▸ hy)
        exact congrArg some (Function.update_of_ne hq _ _)
      | imm w => rfl
      | skip => rfl
    have hvalues : xs.reverse.map (Pushed.value (Pushed.push sp c x).reg) =
        xs.reverse.map (Pushed.value c.reg) :=
      List.map_congr_left fun y hy => hvalue y (List.mem_reverse.1 hy)
    rw [hvalues] at hholds hmem
    have hlen : (xs.reverse.map (Pushed.value c.reg)).length = xs.length := by
      rw [List.length_map, List.length_reverse]
    rw [List.reverse_cons, List.map_append, List.map_singleton]
    refine ⟨?_, ?_, fun y hy => ?_⟩
    · change (build sp xs (Pushed.push sp c x)).reg = _
      rw [hreg]
      exact Function.update_idem _ _ _
    · rw [wordsAt_append, wordsAt_cons, hlen]
      refine ⟨hholds, fun w hw => ?_, wordsAt_nil⟩
      -- the first store lies above all the others
      change (build sp xs (Pushed.push sp c x)).mem _ = w
      rw [hmem _ (spared_of_outside (.inr (Nat.le_of_eq (by rw [hlen])))), Pushed.push]
      simp only [hw]
      rw [show c.reg sp - 8 = a + 8 * xs.length by omega, Function.update_self]
    · change (build sp xs (Pushed.push sp c x)).mem y = _
      rw [hmem y fun k w hk => hy k w ?_]
      · cases hw : x.value c.reg with
        | none => simp only [Pushed.push, hw]
        | some w =>
          have hne := hy xs.length w (by
            rw [List.getElem?_append_right (Nat.le_of_eq hlen), hlen, Nat.sub_self, hw]
            rfl)
          simp only [Pushed.push, hw]
          exact Function.update_of_ne (by omega) _ _
      · rw [List.getElem?_append_left (List.getElem?_eq_some_iff.1 hk).1]
        exact hk

/-! ## Loads from the stack -/

/-- **What a block of loads does.** -/
theorem unload_spec (fit : ρ → ℕ → ℕ) (hnodup : rs.Nodup) (hsp : sp ∉ rs) (ha : c.reg sp = a) :
    (unload sp fit rs c).mem = c.mem ∧ (unload sp fit rs c).reg sp = a + 8 * rs.length ∧
      (∀ k r, rs[k]? = some r → (unload sp fit rs c).reg r = fit r (c.mem (a + 8 * k))) ∧
      ∀ r, r ∉ rs → r ≠ sp → (unload sp fit rs c).reg r = c.reg r := by
  induction rs generalizing c a with
  | nil =>
    refine ⟨rfl, ha, fun k r hk => ?_, fun _ _ _ => rfl⟩
    rw [List.getElem?_nil] at hk
    cases hk
  | cons q rs ih =>
    rw [List.nodup_cons] at hnodup
    rw [List.mem_cons, not_or] at hsp
    have hpop : (pop sp fit c q).reg sp = a + 8 := by
      simp only [pop, Function.update_self, ha]
    obtain ⟨hmem, hreg, hloads, hrest⟩ := ih hnodup.2 hsp.2 hpop
    refine ⟨hmem, hreg.trans ?_, fun k r hk => ?_, fun r hr hrsp => ?_⟩
    · rw [List.length_cons]
      omega
    · cases k with
      | zero =>
        cases hk
        refine (hrest q hnodup.1 (Ne.symm hsp.1)).trans ?_
        simp only [pop, Function.update_of_ne (Ne.symm hsp.1), Function.update_self, ha]
        rfl
      | succ k =>
        refine (hloads k r hk).trans ?_
        rw [show a + 8 + 8 * k = a + 8 * (k + 1) by omega]
        rfl
    · rw [List.mem_cons, not_or] at hr
      refine (hrest r hr.2 hrsp).trans ?_
      simp only [pop, Function.update_of_ne hrsp, Function.update_of_ne hr.1]

end CProj
