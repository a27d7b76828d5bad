/-
  Runs of a machine that may stop.

  `step s i` is the state after the input `i`, or the error that ends the run.  `run` consumes a
  list of inputs; `Meets C` says that every step of a run meets a condition `C` on the state
  before the step and its input.  `run_inv`, `run_ok`, `run_error` and `run_stops` are the rules by
  which a fact about one step becomes one about every run, `run_waits` is the one for what happens
  at last, and `outputs_sim` the one for two machines that answer their inputs alike.  `Path` is a
  run of a relation between states and labels, and `Path.sim` the rule for two that take the same
  labels.
-/
import Mathlib.Data.List.Basic

namespace CProj

variable {σ ι ε : Type*} (step : σ → ι → Except ε σ)

/-- The state after a list of inputs. -/
def run : σ → List ι → Except ε σ
  | s, [] => .ok s
  | s, i :: is => do
    let s' ← step s i
    run s' is

/-- Every step of the run from `s` meets `C`. -/
def Meets (C : σ → ι → Prop) : σ → List ι → Prop
  | _, [] => True
  | s, i :: is => C s i ∧ ∀ s', step s i = .ok s' → Meets C s' is

variable {step} {C : σ → ι → Prop} {s s' : σ} {is : List ι}

theorem bind_eq_ok {α β : Type _} {x : Except ε α} {f : α → Except ε β} {b : β} :
    x >>= f = .ok b ↔ ∃ a, x = .ok a ∧ f a = .ok b := by
  cases x with
  | error e => simp [bind, Except.bind]
  | ok a => simp [bind, Except.bind]

@[simp] theorem ok_bind {α β : Type _} (a : α) (f : α → Except ε β) :
    (Except.ok a : Except ε α) >>= f = f a := rfl

@[simp] theorem bind_ok {α : Type _} (x : Except ε α) : x >>= Except.ok = x := by
  cases x <;> rfl

@[simp] theorem error_bind {α β : Type _} (e : ε) (f : α → Except ε β) :
    (Except.error e : Except ε α) >>= f = .error e := rfl

@[simp] theorem run_nil : run step s [] = .ok s := rfl

theorem run_cons {i : ι} : run step s (i :: is) = .ok s' ↔
    ∃ t, step s i = .ok t ∧ run step t is = .ok s' := by
  rw [run, bind_eq_ok]

theorem run_append {js : List ι} : run step s (is ++ js) = .ok s' ↔
    ∃ t, run step s is = .ok t ∧ run step t js = .ok s' := by
  induction is generalizing s with
  | nil => simp
  | cons i is ih =>
    simp only [List.cons_append, run_cons, ih]
    constructor
    · rintro ⟨t, h1, u, h2, h3⟩; exact ⟨u, ⟨t, h1, h2⟩, h3⟩
    · rintro ⟨u, ⟨t, h1, h2⟩, h3⟩; exact ⟨t, h1, u, h2, h3⟩

theorem meets_append {js : List ι} : Meets step C s (is ++ js) ↔
    Meets step C s is ∧ ∀ t, run step s is = .ok t → Meets step C t js := by
  induction is generalizing s with
  | nil => simp [Meets]
  | cons i is ih =>
    simp only [List.cons_append, Meets, ih, run_cons]
    constructor
    · rintro ⟨h1, h2⟩
      exact ⟨⟨h1, fun t ht => (h2 t ht).1⟩, fun u ⟨t, ht, hu⟩ => (h2 t ht).2 u hu⟩
    · rintro ⟨⟨h1, h2⟩, h3⟩
      exact ⟨h1, fun t ht => ⟨h2 t ht, fun u hu => h3 u ⟨t, ht, hu⟩⟩⟩

theorem Meets.mono {D : σ → ι → Prop} (hCD : ∀ s i, C s i → D s i) (h : Meets step C s is) :
    Meets step D s is := by
  induction is generalizing s with
  | nil => trivial
  | cons i is ih => exact ⟨hCD _ _ h.1, fun t ht => ih (h.2 t ht)⟩

theorem meets_of_forall (h : ∀ i ∈ is, ∀ s, C s i) : Meets step C s is := by
  induction is generalizing s with
  | nil => trivial
  | cons i is ih => exact ⟨h i (by simp) s, fun t _ => ih fun j hj => h j (by simp [hj])⟩

theorem meets_true : Meets step (fun _ _ => True) s is := meets_of_forall fun _ _ _ => trivial

/-- **Invariants of runs.** What every step that meets `C` preserves holds at the end of every
    run whose steps meet `C`, on inputs that satisfy `A`. -/
theorem run_inv (Inv : σ → Prop) {A : ι → Prop}
    (hstep : ∀ s i s', Inv s → A i → C s i → step s i = .ok s' → Inv s') (h₀ : Inv s)
    (hA : ∀ i ∈ is, A i) (hC : Meets step C s is) (hrun : run step s is = .ok s') : Inv s' := by
  induction is generalizing s with
  | nil => cases hrun; exact h₀
  | cons i is ih =>
    obtain ⟨t, ht, hrest⟩ := run_cons.1 hrun
    exact ih (hstep _ _ _ h₀ (hA i (by simp)) hC.1 ht) (fun j hj => hA j (by simp [hj]))
      (hC.2 t ht) hrest

/-- **Completion of runs.** If every step from a good state that meets `C` returns, in a good
    state, then so does every run whose steps meet `C`. -/
theorem run_ok (Inv : σ → Prop) {A : ι → Prop}
    (hstep : ∀ s i, Inv s → A i → C s i → ∃ s', step s i = .ok s' ∧ Inv s') (h₀ : Inv s)
    (hA : ∀ i ∈ is, A i) (hC : Meets step C s is) : ∃ s', run step s is = .ok s' ∧ Inv s' := by
  induction is generalizing s with
  | nil => exact ⟨s, rfl, h₀⟩
  | cons i is ih =>
    obtain ⟨t, ht, hinv⟩ := hstep s i h₀ (hA i (by simp)) hC.1
    obtain ⟨u, hu, hinv'⟩ := ih hinv (fun j hj => hA j (by simp [hj])) (hC.2 t ht)
    exact ⟨u, run_cons.2 ⟨t, ht, hu⟩, hinv'⟩

/-- **Stops.** If a step returns in a good state from every good state in which the machine has not
    stopped, then a run returns in a good state, or it reaches a good state in which the machine has
    stopped. -/
theorem run_stops (Inv Stop : σ → Prop) {A : ι → Prop} {e : ε}
    (hok : ∀ s i, Inv s → ¬ Stop s → A i → C s i → ∃ s', step s i = .ok s' ∧ Inv s')
    (hstop : ∀ s i, Stop s → step s i = .error e) (h₀ : Inv s) (hA : ∀ i ∈ is, A i)
    (hC : Meets step C s is) : (∃ s', run step s is = .ok s' ∧ Inv s') ∨
      run step s is = .error e ∧ ∃ js t, js <+: is ∧ run step s js = .ok t ∧ Inv t ∧ Stop t := by
  induction is generalizing s with
  | nil => exact .inl ⟨s, rfl, h₀⟩
  | cons i is ih =>
    by_cases hs : Stop s
    · refine .inr ⟨?_, [], s, List.nil_prefix, rfl, h₀, hs⟩
      rw [run, hstop s i hs, error_bind]
    obtain ⟨t, ht, hinv⟩ := hok s i h₀ hs (hA i (by simp)) hC.1
    rcases ih hinv (fun j hj => hA j (by simp [hj])) (hC.2 t ht) with
      ⟨u, hu, hinv'⟩ | ⟨herr, js, u, hjs, hu, hinv', hs'⟩
    · exact .inl ⟨u, run_cons.2 ⟨t, ht, hu⟩, hinv'⟩
    · refine .inr ⟨?_, i :: js, u, List.cons_prefix_cons.2 ⟨rfl, hjs⟩, run_cons.2 ⟨t, ht, hu⟩,
        hinv', hs'⟩
      rw [run, ht, ok_bind, herr]

/-- **Bounded waiting.** If every step of a run that meets `C` reaches the goal or keeps `Inv`, and
    the inputs that are turns decrease a measure `m`, then the goal is reached in every run with
    more than `m` turns. -/
theorem run_waits (Inv Goal : σ → Prop) (turn : ι → Bool) (m : σ → ℕ)
    (hstep : ∀ s i s', Inv s → ¬ Goal s → C s i → step s i = .ok s' →
      Goal s' ∨ Inv s' ∧ (if turn i = true then m s' < m s else m s' ≤ m s))
    (h₀ : Inv s) (hC : Meets step C s is) (hrun : run step s is = .ok s')
    (hturns : m s < is.countP turn) : ∃ js t, js <+: is ∧ run step s js = .ok t ∧ Goal t := by
  induction is generalizing s with
  | nil => exact absurd hturns (Nat.not_lt_zero _)
  | cons i is ih =>
    by_cases hgoal : Goal s
    · exact ⟨[], s, List.nil_prefix, rfl, hgoal⟩
    obtain ⟨t, ht, hrest⟩ := run_cons.1 hrun
    rcases hstep s i t h₀ hgoal hC.1 ht with hgoal' | ⟨hinv, hm⟩
    · exact ⟨[i], t, List.prefix_append [i] is, run_cons.2 ⟨t, ht, rfl⟩, hgoal'⟩
    · have hleft : m t < is.countP turn := by
        rw [List.countP_cons] at hturns
        split_ifs at hm hturns <;> omega
      obtain ⟨js, u, hjs, hu, hgoal'⟩ := ih hinv (hC.2 t ht) hrest hleft
      exact ⟨i :: js, u, List.cons_prefix_cons.2 ⟨rfl, hjs⟩, run_cons.2 ⟨t, ht, hu⟩, hgoal'⟩

/-! ## Machines with outputs -/

/-- The outputs of a list of inputs, and the state after them. -/
def outputs {ρ : Type*} (call : σ → ι → Except ε (ρ × σ)) :
    σ → List ι → Except ε (List ρ × σ)
  | s, [] => .ok ([], s)
  | s, i :: is => (call s i).bind fun p => (outputs call p.2 is).bind fun q => .ok (p.1 :: q.1, q.2)

theorem outputs_cons {ρ : Type*} {call : σ → ι → Except ε (ρ × σ)} {i : ι} {rs : List ρ} :
    outputs call s (i :: is) = .ok (rs, s') ↔ ∃ r t rs', call s i = .ok (r, t) ∧
      outputs call t is = .ok (rs', s') ∧ rs = r :: rs' := by
  rw [outputs]
  constructor
  · intro h
    obtain ⟨⟨r, t⟩, hcall, h⟩ := bind_eq_ok.1 h
    obtain ⟨⟨rs', u⟩, hrest, h⟩ := bind_eq_ok.1 h
    cases h
    exact ⟨r, t, rs', hcall, hrest, rfl⟩
  · rintro ⟨r, t, rs', hcall, hrest, rfl⟩
    rw [hcall, Except.bind, hrest]
    rfl

/-- **Simulation.** Two machines that give the same output to every allowed input, from related
    states into related states, give the same outputs to every list of allowed inputs. -/
theorem outputs_sim {τ ρ δ : Type*} {call : σ → ι → Except ε (ρ × σ)}
    {call' : τ → ι → Except δ (ρ × τ)} {R : σ → τ → Prop} {A : ι → Prop}
    (hstep : ∀ s t i, R s t → A i → ∃ r s' t',
      call s i = .ok (r, s') ∧ call' t i = .ok (r, t') ∧ R s' t') {t : τ} (h₀ : R s t)
    (hA : ∀ i ∈ is, A i) : ∃ rs s' t',
      outputs call s is = .ok (rs, s') ∧ outputs call' t is = .ok (rs, t') ∧ R s' t' := by
  induction is generalizing s t with
  | nil => exact ⟨[], s, t, rfl, rfl, h₀⟩
  | cons i is ih =>
    obtain ⟨r, s₁, t₁, h1, h2, hR⟩ := hstep s t i h₀ (hA i (by simp))
    obtain ⟨rs, s', t', h3, h4, hR'⟩ := ih hR fun j hj => hA j (by simp [hj])
    refine ⟨r :: rs, s', t', ?_, ?_, hR'⟩
    · simp only [outputs, h1, h3, Except.bind]
    · simp only [outputs, h2, h4, Except.bind]

/-! ## Relations with labels -/

/-- Steps of a relation one after another, with their labels. -/
inductive Path {σ ι : Type*} (R : σ → ι → σ → Prop) : σ → List ι → σ → Prop
  | nil {s : σ} : Path R s [] s
  | cons {s t u : σ} {i : ι} {is : List ι} (hstep : R s i t) (hrest : Path R t is u) :
    Path R s (i :: is) u

/-- **Simulation of paths.** If every step from a good state leads to a good state, and is a step of
    another relation between the images of the states under the same label, then every path is one
    of the other relation. -/
theorem Path.sim {τ : Type*} {R : σ → ι → σ → Prop} {Q : τ → ι → τ → Prop} {f : σ → τ}
    (Inv : σ → Prop) (hstep : ∀ s i t, Inv s → R s i t → Inv t ∧ Q (f s) i (f t)) (h₀ : Inv s)
    (hpath : Path R s is s') : Inv s' ∧ Path Q (f s) is (f s') := by
  induction hpath with
  | nil => exact ⟨h₀, .nil⟩
  | cons hone _ ih =>
    obtain ⟨hinv, hone'⟩ := hstep _ _ _ h₀ hone
    obtain ⟨hinv', hrest⟩ := ih hinv
    exact ⟨hinv', .cons hone' hrest⟩

end CProj
