/-
  The loop `for (ptiter it(pt); it.active(); it.next())` enumerates a page table.

  Which tables lie below a table is said by `Below`, link by link; the loop visits each of them
  once, and every one after those below it.
-/
import CProj.WeensyOS.Checks

namespace CProj.WeensyOS

/-- The pages that the rest of the loop visits. -/
def Ptiter.visits (m : Mem) : ℕ → Ptiter → Except Fault (List ℕ)
  | 0, _ => .error .running
  | fuel + 1, it =>
    if it.active then do
      let rest ← it.next m
      let ns ← visits m fuel rest
      return it.pa m / PAGESIZE :: ns
    else .ok []

/-- The pages that the loop visits, in order. -/
def ptiterLoop (m : Mem) (pt : ℕ) : Except Fault (List ℕ) := do
  let it ← Ptiter.create m pt 0
  it.visits m Ptiter.fuel

/-- The table `p` of level `k` lies below the table `t` of level `l`. -/
inductive Below (m : Mem) : ℕ → ℕ → ℕ → ℕ → Prop
  | link {l t i : ℕ} (hi : i < 512) (hlink : IsLink (m t i)) : Below m (l + 1) t l (pageOf (m t i))
  | under {l t i k p : ℕ} (hi : i < 512) (hlink : IsLink (m t i)) (h : Below m l (pageOf (m t i)) k p) :
    Below m (l + 1) t k p

/-- A page that the table with root `r` maps, and that is none of its tables. -/
def DataPage (m : Mem) (r n : ℕ) : Prop :=
  (∃ v q, Canonical v ∧ translate m r v = some (n, q)) ∧ n ≠ r ∧ ∀ k, ¬ Below m 3 r k n

/-- The list `ns` enumerates the tables below the root `r`, children first. -/
structure Enumerates (m : Mem) (r : ℕ) (ns : List ℕ) : Prop where
  once : ns.Nodup
  all : ∀ p, p ∈ ns ↔ ∃ k, Below m 3 r k p
  not_root : r ∉ ns
  not_data : ∀ n, DataPage m r n → n ∉ ns
  /-- `c` lies below `p` and comes before it -/
  children_first : ∀ k p j c, Below m 3 r k p → Below m k p j c → [c, p].Sublist ns

variable {m : Mem} {r l t k p : ℕ}

theorem mem_subtables_iff : ∀ {l t : ℕ}, p ∈ subtables m l t ↔ ∃ k, Below m l t k p
  | 0, t => by
    refine iff_of_false List.not_mem_nil ?_
    rintro ⟨k, h⟩
    cases h
  | l + 1, t => by
    rw [mem_subtables]
    constructor
    · rintro ⟨i, hi, hlink, hp⟩
      rcases List.mem_cons.1 hp with rfl | hp
      · exact ⟨l, .link hi hlink⟩
      · obtain ⟨k, h⟩ := mem_subtables_iff.1 hp
        exact ⟨k, .under hi hlink h⟩
    · rintro ⟨k, h⟩
      cases h with
      | link hi hlink => exact ⟨_, hi, hlink, List.mem_cons_self⟩
      | under hi hlink h => exact ⟨_, hi, hlink, List.mem_cons_of_mem _ (mem_subtables_iff.2 ⟨k, h⟩)⟩

theorem below_sublist {i : ℕ} (hi : i < 512) (hlink : IsLink (m t i)) :
    (subtables m l (pageOf (m t i)) ++ [pageOf (m t i)]).Sublist (subtables m (l + 1) t) := by
  have h : (below m l t i).Sublist (subtables m (l + 1) t) := by
    rw [subtables_succ, List.flatMap_def]
    exact List.sublist_flatten_of_mem (List.mem_map_of_mem (List.mem_range.2 hi))
  rwa [below, if_pos hlink] at h

/-- The list `subtables` has the children first. -/
theorem Below.sublist {j c : ℕ} (h : Below m l t k p) (hc : Below m k p j c) :
    [c, p].Sublist (subtables m l t) := by
  induction h with
  | @link l t i hi hlink =>
    have hmem : c ∈ subtables m l (pageOf (m t i)) := mem_subtables_iff.2 ⟨j, hc⟩
    have hsub : [c, pageOf (m t i)].Sublist (subtables m l (pageOf (m t i)) ++ [pageOf (m t i)]) :=
      (List.singleton_sublist.2 hmem).append (List.Sublist.refl [pageOf (m t i)])
    exact hsub.trans (below_sublist hi hlink)
  | under hi hlink _ ih =>
    exact ((ih hc).trans (List.sublist_append_left _ _)).trans (below_sublist hi hlink)

theorem enumerates_subtables (htree : (tables m 3 r).Nodup) : Enumerates m r (subtables m 3 r) := by
  obtain ⟨hroot, hsub⟩ := List.nodup_cons.1 htree
  refine ⟨hsub, fun p => mem_subtables_iff, hroot, fun n hn hmem => ?_,
    fun k p j c h hc => h.sublist hc⟩
  obtain ⟨k, h⟩ := mem_subtables_iff.1 hmem
  exact hn.2.2 k h

/-- The loop visits the tables of a scan and goes on from the configuration where it ends. -/
theorem Scan.visits {c d : Cfg} {ns : List ℕ} (h : Scan m k c ns d) :
    ∀ fuel F : ℕ, k < fuel → fuel ≤ Ptiter.fuel → k < F → ∃ fuel' F', 0 < fuel' ∧ 0 < F' ∧
      (c.loop m fuel >>= fun it => it.visits m F) =
        ((d.loop m fuel' >>= fun it => it.visits m F') >>= fun rest => pure (ns ++ rest)) := by
  induction h with
  | refl =>
    intro fuel F hfuel _ hF
    refine ⟨fuel, F, hfuel, hF, ?_⟩
    simp only [List.nil_append, bind_pure]
  | silent h _ ih =>
    intro fuel F hfuel hle hF
    obtain ⟨fuel, rfl⟩ : ∃ n, fuel = n + 1 := ⟨fuel - 1, by omega⟩
    rw [h]
    exact ih fuel F (by omega) (by omega) (by omega)
  | @visit k c e it n ns h hactive hpa _ _ ih =>
    intro fuel F hfuel hle hF
    obtain ⟨fuel, rfl⟩ : ∃ n, fuel = n + 1 := ⟨fuel - 1, by omega⟩
    obtain ⟨F, rfl⟩ : ∃ n, F = n + 1 := ⟨F - 1, by omega⟩
    obtain ⟨fuel', F', h1, h2, h3⟩ := ih Ptiter.fuel F (by omega) le_rfl (by omega)
    refine ⟨fuel', F', h1, h2, ?_⟩
    rw [h, ok_bind, Ptiter.visits, if_pos hactive, hpa, page_div, ← bind_assoc]
    change ((Cfg.loop m Ptiter.fuel ⟨it, 1, true⟩ >>= fun it => it.visits m F) >>= _) = _
    rw [h3, bind_assoc]
    simp only [pure_bind, List.cons_append]

/-- The loop visits the list `subtables`, whatever the shape of the table. -/
theorem ptiterLoop_eq (m : Mem) (r : ℕ) : ptiterLoop m (r * 4096) = .ok (subtables m 3 r) := by
  obtain ⟨k, va, skip, hk, hlast, hdone, hscan⟩ := scan_root m r
  obtain ⟨fuel, F, hfuel, hF, hloop⟩ := hscan.visits Ptiter.fuel Ptiter.fuel
    (lt_of_le_of_lt hk (by decide)) le_rfl (lt_of_le_of_lt hk (by decide))
  obtain ⟨fuel, rfl⟩ : ∃ n, fuel = n + 1 := ⟨fuel - 1, by omega⟩
  obtain ⟨F, rfl⟩ : ∃ n, F = n + 1 := ⟨F - 1, by omega⟩
  have hend : Cfg.loop m (fuel + 1) ⟨ptAt r 3 r va, 1, skip⟩ =
      .ok { ptAt r 3 r va with va := VA_NONCANONMAX + 1 } :=
    step_end (by rw [hlast]; exact hdone) hlast fuel
  have hinactive : ¬ Ptiter.active { ptAt r 3 r va with va := VA_NONCANONMAX + 1 } = true := by
    rw [Ptiter.active, decide_eq_true_iff]
    exact Nat.not_succ_le_self _
  rw [ptiterLoop, ptiter_create, hloop, hend, ok_bind, Ptiter.visits, if_neg hinactive, ok_bind,
    List.append_nil]
  rfl

/-- **`ptiter` enumerates a page table.** -/
theorem ptiterLoop_enumerates (htree : (tables m 3 r).Nodup) :
    ∃ ns, ptiterLoop m (r * 4096) = .ok ns ∧ Enumerates m r ns :=
  ⟨subtables m 3 r, ptiterLoop_eq m r, enumerates_subtables htree⟩

/-- A table with two tables of level 0. -/
theorem ptiterLoop_tableMem : (tables (tableMem 1 fun v => v * 4096 + 7) 3 1).Nodup ∧
    ∃ ns, ptiterLoop (tableMem 1 fun v => v * 4096 + 7) (1 * 4096) = .ok ns ∧
      Enumerates (tableMem 1 fun v => v * 4096 + 7) 1 ns := by
  have htree : (tables (tableMem 1 fun v => v * 4096 + 7) 3 1).Nodup := by decide +kernel
  exact ⟨htree, ptiterLoop_enumerates htree⟩

end CProj.WeensyOS
