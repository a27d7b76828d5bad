/-
  Random-access byte files as lists.

  `store z d off bs` is the file `d` after the bytes `bs` have been put at offset `off`: a gap
  between the end of `d` and `off` is filled with `z`, and storing nothing changes nothing, not
  even the length.  `slice d off n` are the (at most `n`) bytes of `d` from `off` on.
-/
import Mathlib.Data.List.Basic
import Mathlib.Order.Monotone.Defs
import Mathlib.Tactic.Ring

namespace CProj

variable {α : Type*} {z : α} {d : List α} {off : ℕ} {bs : List α}

/-- The bytes `bs` put at offset `off` of the file `d`. -/
def store (z : α) (d : List α) (off : ℕ) (bs : List α) : List α :=
  match bs with
  | [] => d
  | _ => (d ++ List.replicate (off - d.length) z).take off ++ bs ++ d.drop (off + bs.length)

/-- The bytes of `d` from `off` on, at most `n` of them. -/
def slice (d : List α) (off n : ℕ) : List α := (d.drop off).take n

@[simp] theorem store_nil : store z d off [] = d := rfl

theorem store_ne_nil (h : bs ≠ []) : store z d off bs =
    (d ++ List.replicate (off - d.length) z).take off ++ bs ++ d.drop (off + bs.length) := by
  cases bs with
  | nil => exact absurd rfl h
  | cons b bs => rfl

theorem length_store (h : bs ≠ []) :
    (store z d off bs).length = max d.length (off + bs.length) := by
  rw [store_ne_nil h]
  simp only [List.length_append, List.length_take, List.length_replicate, List.length_drop]
  omega

theorem length_store_le : (store z d off bs).length ≤ max d.length (off + bs.length) := by
  rcases eq_or_ne bs [] with rfl | h
  · simp
  · rw [length_store h]

theorem le_length_store : d.length ≤ (store z d off bs).length := by
  rcases eq_or_ne bs [] with rfl | h
  · simp
  · rw [length_store h]; omega

/-- Every position of a stored file, at once. -/
theorem getElem?_store (h : bs ≠ []) (i : ℕ) : (store z d off bs)[i]? =
    if i < off then (if i < d.length then d[i]? else some z)
    else if i < off + bs.length then bs[i - off]? else d[i]? := by
  have hlen : ((d ++ List.replicate (off - d.length) z).take off).length = off := by simp; omega
  rw [store_ne_nil h, List.append_assoc]
  by_cases h1 : i < off
  · rw [List.getElem?_append_left (by omega), List.getElem?_take_of_lt h1, if_pos h1]
    split_ifs with h2
    · rw [List.getElem?_append_left h2]
    · rw [List.getElem?_append_right (by omega), List.getElem?_replicate, if_pos (by omega)]
  · rw [List.getElem?_append_right (by omega), hlen, if_neg h1]
    split_ifs with h2
    · rw [List.getElem?_append_left (by omega)]
    · rw [List.getElem?_append_right (by omega), List.getElem?_drop]
      congr 1; omega

/-- A position in front of the stored bytes and inside the file keeps its byte. -/
theorem getElem?_store_lt {i : ℕ} (hi : i < off) (hd : i < d.length) :
    (store z d off bs)[i]? = d[i]? := by
  rcases eq_or_ne bs [] with rfl | h
  · rfl
  · rw [getElem?_store h, if_pos hi, if_pos hd]

/-- A position behind the stored bytes keeps its byte. -/
theorem getElem?_store_ge {i : ℕ} (hi : off + bs.length ≤ i) :
    (store z d off bs)[i]? = d[i]? := by
  rcases eq_or_ne bs [] with rfl | h
  · rfl
  · rw [getElem?_store h, if_neg (by omega), if_neg (by omega)]

/-- **Storing in two pieces.** -/
theorem store_store (cs : List α) :
    store z (store z d off bs) (off + bs.length) cs = store z d off (bs ++ cs) := by
  rcases eq_or_ne bs [] with rfl | hb
  · simp
  rcases eq_or_ne cs [] with rfl | hc
  · simp
  have hbc : bs ++ cs ≠ [] := by simp [hb]
  apply List.ext_getElem?
  intro i
  rw [getElem?_store hc, getElem?_store hb, getElem?_store hbc, length_store hb]
  simp only [List.length_append]
  by_cases h1 : i < off
  · rw [if_pos (by omega), if_pos (by omega), if_pos h1, if_pos h1]
  by_cases h2 : i < off + bs.length
  · rw [if_pos h2, if_pos (by omega), if_neg h1, if_pos h2, if_neg h1, if_pos (by omega),
      List.getElem?_append_left (by omega)]
  by_cases h3 : i < off + bs.length + cs.length
  · rw [if_neg h2, if_pos h3, if_neg h1, if_pos (by omega), List.getElem?_append_right (by omega)]
    congr 1; omega
  · rw [if_neg h2, if_neg h3, if_neg h1, if_neg h2, if_neg h1, if_neg (by omega)]

@[simp] theorem length_slice (n : ℕ) : (slice d off n).length = min n (d.length - off) := by
  simp [slice]

theorem getElem?_slice (n i : ℕ) :
    (slice d off n)[i]? = if i < n then d[off + i]? else none := by
  simp only [slice, List.getElem?_take, List.getElem?_drop]

theorem slice_of_length_le (n : ℕ) (h : d.length ≤ off) : slice d off n = [] := by
  simp [slice, List.drop_eq_nil_of_le h]

/-- Asking for no more than there is. -/
theorem slice_min_length (n : ℕ) : slice d off (min n (d.length - off)) = slice d off n := by
  rw [← length_slice, slice, slice, List.length_take, ← List.take_take, List.take_length]

theorem slice_add (n m : ℕ) : slice d off (n + m) = slice d off n ++ slice d (off + n) m := by
  simp [slice, List.take_add, List.drop_drop]

/-- **Storing what is already there** changes nothing. -/
theorem store_slice (n : ℕ) : store z d off (slice d off n) = d := by
  rcases eq_or_ne (slice d off n) [] with h | h
  · rw [h]; rfl
  have hlen := List.length_pos_of_ne_nil h
  rw [length_slice] at hlen
  apply List.ext_getElem?
  intro i
  rw [getElem?_store h, getElem?_slice, length_slice]
  by_cases h1 : i < off
  · rw [if_pos h1, if_pos (by omega)]
  by_cases h2 : i < off + min n (d.length - off)
  · rw [if_neg h1, if_pos h2, if_pos (by omega)]
    congr 1; omega
  · rw [if_neg h1, if_neg h2]

/-- Two files with the same bytes from a position on have the same slices there. -/
theorem slice_congr {e : List α} {n : ℕ} (h : ∀ i, off ≤ i → i < off + n → d[i]? = e[i]?) :
    slice d off n = slice e off n := by
  apply List.ext_getElem?
  intro i
  rw [getElem?_slice, getElem?_slice]
  split_ifs with hi
  · exact h _ (by omega) (by omega)
  · rfl

/-- The stored bytes are there afterwards. -/
theorem slice_store : slice (store z d off bs) off bs.length = bs := by
  rcases eq_or_ne bs [] with rfl | h
  · simp [slice]
  apply List.ext_getElem?
  intro i
  rw [getElem?_slice, getElem?_store h]
  split_ifs with h1 h2 h3 h4
  · omega
  · omega
  · rw [Nat.add_sub_cancel_left]
  · omega
  · rw [List.getElem?_eq_none (by omega)]

/-- A slice behind the stored bytes is unchanged. -/
theorem slice_store_ge {a n : ℕ} (h : off + bs.length ≤ a) :
    slice (store z d off bs) a n = slice d a n :=
  slice_congr fun _ hi _ => getElem?_store_ge (h.trans hi)

/-- What stands in front of the stored bytes, inside the file, is unchanged. -/
theorem take_store (h : off ≤ d.length) : (store z d off bs).take off = d.take off := by
  apply List.ext_getElem?
  intro i
  rw [List.getElem?_take, List.getElem?_take]
  split_ifs with hi
  · exact getElem?_store_lt hi (by omega)
  · rfl

/-- **Storing over a part of a file.** -/
theorem store_append (as cs : List α) {bs' : List α} (h : bs'.length = bs.length) :
    store z (as ++ bs ++ cs) as.length bs' = as ++ bs' ++ cs := by
  rcases eq_or_ne bs' [] with rfl | hne
  · have hbs : bs = [] := List.eq_nil_of_length_eq_zero h.symm
    rw [hbs, store_nil]
  · rw [store_ne_nil hne, List.append_assoc as bs cs, List.append_assoc as (bs ++ cs),
      List.take_left, h, ← List.length_append, ← List.append_assoc as bs cs, List.drop_left]

/-- **Storing at the end of a file.** -/
theorem store_at_end (as bs : List α) : store z as as.length bs = as ++ bs := by
  rcases eq_or_ne bs [] with rfl | hne
  · rw [store_nil, List.append_nil]
  · rw [store_ne_nil hne, Nat.sub_self, List.replicate_zero, List.append_nil, List.take_length,
      List.drop_eq_nil_of_le (Nat.le_add_right _ _), List.append_nil]

/-- **A file is cut into slices** at the offsets `p`. -/
theorem flatMap_slice (d : List α) (a : ℕ) {p : ℕ → ℕ} (h0 : p 0 = 0) (hmono : Monotone p) (n : ℕ) :
    ((List.range n).flatMap fun j => slice d (a + p j) (p (j + 1) - p j)) = slice d a (p n) := by
  induction n with
  | zero => simp [h0, slice]
  | succ n ih =>
    have hle : p n ≤ p (n + 1) := hmono (Nat.le_succ n)
    rw [List.range_succ, List.flatMap_append, ih, List.flatMap_singleton, ← slice_add,
      Nat.add_sub_cancel' hle]

end CProj
