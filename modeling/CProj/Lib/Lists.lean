/-
  Lists that are put together from parts, of which one changes.

  `flatMap_exchange_perm` says what becomes of a concatenation when one part changes; it is how a
  change to one entry, address or process shows in the list of everything that is in use.
-/
import Mathlib.Data.List.Nodup
import Mathlib.Data.List.Perm.Basic
import Mathlib.Data.List.Count
import Mathlib.Data.List.Range

namespace CProj

variable {α β : Type*}

/-- **One part is exchanged.** -/
theorem flatMap_exchange_perm {l : List α} (hl : l.Nodup) {j : α} (hj : j ∈ l)
    {f g : α → List β} (hne : ∀ i ∈ l, i ≠ j → g i = f i) :
    (l.flatMap g ++ f j).Perm (l.flatMap f ++ g j) := by
  obtain ⟨as, bs, rfl⟩ := List.append_of_mem hj
  have hj' : j ∉ as ∧ j ∉ bs := by
    have := List.nodup_middle.1 hl
    simpa using (List.nodup_cons.1 this).1
  have h1 : as.flatMap g = as.flatMap f := by
    refine List.flatMap_congr fun i hi => hne i (by simp [hi]) ?_
    rintro rfl
    exact hj'.1 hi
  have h2 : bs.flatMap g = bs.flatMap f := by
    refine List.flatMap_congr fun i hi => hne i (by simp [hi]) ?_
    rintro rfl
    exact hj'.2 hi
  simp only [List.flatMap_append, List.flatMap_cons, h1, h2, List.append_assoc]
  refine List.Perm.append_left _ ?_
  calc g j ++ (bs.flatMap f ++ f j)
      _ |>.Perm (g j ++ (f j ++ bs.flatMap f)) := List.Perm.append_left _ List.perm_append_comm
      _ |>.Perm ((f j ++ bs.flatMap f) ++ g j) := List.perm_append_comm
      _ |>.Perm (f j ++ (bs.flatMap f ++ g j)) := by rw [List.append_assoc]

/-- **One part grows.** -/
theorem flatMap_update_perm {l : List α} (hl : l.Nodup) {j : α} (hj : j ∈ l)
    {f g : α → List β} {new : List β} (hne : ∀ i ∈ l, i ≠ j → g i = f i)
    (hperm : (g j).Perm (f j ++ new)) : (l.flatMap g).Perm (l.flatMap f ++ new) := by
  have hswap : (l.flatMap g ++ f j).Perm (l.flatMap f ++ new ++ f j) := by
    refine (flatMap_exchange_perm hl hj hne).trans ?_
    rw [List.append_assoc]
    exact List.Perm.append_left _ (hperm.trans List.perm_append_comm)
  exact (List.perm_append_right_iff _).1 hswap

/-- **A concatenation by rows** has the elements of the concatenation by columns. -/
theorem flatMap_swap_perm {γ : Type*} (l : List α) (l' : List γ) (f : α → γ → List β) :
    (l.flatMap fun a => l'.flatMap fun b => f a b).Perm (l'.flatMap fun b => l.flatMap fun a => f a b) := by
  induction l with
  | nil => simp
  | cons a l ih =>
    simp only [List.flatMap_cons]
    exact (List.Perm.append_left _ ih).trans (List.flatMap_append_perm l' _ _)

/-- Distinct parts of a concatenation without duplicates are disjoint. -/
theorem disjoint_of_nodup_flatMap {l : List α} {f : α → List β} (h : (l.flatMap f).Nodup) {i j : α}
    (hi : i ∈ l) (hj : j ∈ l) (hij : i ≠ j) : List.Disjoint (f i) (f j) := by
  have hsymm : Std.Symm (Function.onFun List.Disjoint f) := ⟨fun _ _ h _ hb ha => h ha hb⟩
  exact (List.nodup_flatMap.1 h).2.forall hi hj hij

theorem nodup_of_nodup_flatMap {l : List α} {f : α → List β} (h : (l.flatMap f).Nodup) {i : α}
    (hi : i ∈ l) : (f i).Nodup :=
  (List.nodup_flatMap.1 h).1 i hi

section
variable [DecidableEq β] {f : α → List β} {l : List α} {a : β}

theorem count_le_count_flatMap {i : α} (hi : i ∈ l) : (f i).count a ≤ (l.flatMap f).count a := by
  obtain ⟨as, bs, rfl⟩ := List.append_of_mem hi
  simp only [List.flatMap_append, List.flatMap_cons, List.count_append]
  omega

/-- Two parts count together. -/
theorem count_add_count_le {i j : α} (hi : i ∈ l) (hj : j ∈ l) (hij : i ≠ j) :
    (f i).count a + (f j).count a ≤ (l.flatMap f).count a := by
  obtain ⟨as, bs, rfl⟩ := List.append_of_mem hi
  have hj' : j ∈ as ∨ j ∈ bs := by simpa [Ne.symm hij] using hj
  simp only [List.flatMap_append, List.flatMap_cons, List.count_append]
  rcases hj' with hj' | hj'
  · have := count_le_count_flatMap (f := f) (a := a) hj'
    omega
  · have := count_le_count_flatMap (f := f) (a := a) hj'
    omega

/-- Parts without duplicates. -/
theorem count_flatMap_le_length (h : ∀ i ∈ l, (f i).Nodup) : (l.flatMap f).count a ≤ l.length := by
  induction l with
  | nil => simp
  | cons i l ih =>
    have h1 := List.nodup_iff_count_le_one.1 (h i List.mem_cons_self) a
    have h2 := ih fun j hj => h j (List.mem_cons_of_mem i hj)
    rw [List.flatMap_cons, List.count_append, List.length_cons]
    omega

theorem count_flatMap_mono {g : α → List β} (h : ∀ i ∈ l, (f i).count a ≤ (g i).count a) :
    (l.flatMap f).count a ≤ (l.flatMap g).count a := by
  induction l with
  | nil => simp
  | cons i l ih =>
    have h1 := h i List.mem_cons_self
    have h2 := ih fun j hj => h j (List.mem_cons_of_mem i hj)
    rw [List.flatMap_cons, List.flatMap_cons, List.count_append, List.count_append]
    omega

end

/-- Only one element has an image. -/
theorem flatMap_eq_single {α β : Type*} {f : α → List β} {a : α} {l : List α} (hnd : l.Nodup)
    (ha : a ∈ l)
    (h : ∀ b ∈ l, b ≠ a → f b = []) : l.flatMap f = f a := by
  induction l with
  | nil => cases ha
  | cons b l ih =>
    obtain ⟨hb, hnd⟩ := List.nodup_cons.1 hnd
    rw [List.flatMap_cons]
    rcases List.mem_cons.1 ha with rfl | ha
    · have hnil : l.flatMap f = [] := List.flatMap_eq_nil_iff.2 fun b' hb' =>
        h b' (List.mem_cons_of_mem _ hb') fun heq => hb (heq ▸ hb')
      rw [hnil, List.append_nil]
    · have hne : b ≠ a := fun heq => hb (heq ▸ ha)
      rw [h b List.mem_cons_self hne, List.nil_append]
      exact ih hnd ha fun b' hb' => h b' (List.mem_cons_of_mem _ hb')

end CProj
