/-
  `rot13.c` on `student.c`: every byte of the file is replaced in place.
-/
import CProj.FileIO.Handles
import CProj.FileIO.Programs

namespace CProj.FileIO.Student

variable {C : ℕ} {f : Io300File Os} {disk garbage : List UInt8}

/-- The cipher is its own inverse. -/
theorem rot13_rot13 (b : UInt8) : rot13 (rot13 b) = b := by
  have h : ∀ n < 256, rot13 (rot13 (UInt8.ofNat n)) = UInt8.ofNat n := by decide +kernel
  have hb := h b.toNat b.toNat_lt
  rwa [UInt8.ofNat_toNat] at hb

/-- The file after the first `i` bytes have been replaced. -/
def rotated (disk : List UInt8) (i : ℕ) : List UInt8 := (disk.take i).map rot13 ++ disk.drop i

theorem length_rotated (i : ℕ) : (rotated disk i).length = disk.length := by
  rw [rotated, List.length_append, List.length_map, ← List.length_append, List.take_append_drop]

/-- The next byte, and the file after it has been replaced. -/
theorem rotated_succ {i : ℕ} (hi : i < disk.length) :
    (rotated disk i)[i]? = some disk[i] ∧
      store 0 (rotated disk i) i [rot13 disk[i]] = rotated disk (i + 1) := by
  have hlen : ((disk.take i).map rot13).length = i := by
    rw [List.length_map, List.length_take, min_eq_left hi.le]
  have hsplit : rotated disk i = (disk.take i).map rot13 ++ [disk[i]] ++ disk.drop (i + 1) := by
    rw [rotated, List.drop_eq_getElem_cons hi, List.append_assoc]
    rfl
  constructor
  · rw [hsplit, List.append_assoc, List.getElem?_append_right hlen.le, hlen, Nat.sub_self]
    rfl
  · have hstore : store (0 : UInt8) ((disk.take i).map rot13 ++ [disk[i]] ++ disk.drop (i + 1))
        ((disk.take i).map rot13).length [rot13 disk[i]] =
          (disk.take i).map rot13 ++ [rot13 disk[i]] ++ disk.drop (i + 1) :=
      store_append _ _ rfl
    rw [hlen] at hstore
    rw [hsplit, hstore, rotated, List.take_add_one, List.getElem?_eq_getElem hi, List.map_append]
    rfl

/-- One round: seek, read, seek, write. -/
theorem rot13Loop_cons (is : List ℕ) (hC : 0 < C) {i : ℕ} (hi : i < disk.length)
    (hlt : disk.length < 2 ^ 31) {p : ℕ} (h : At C f (rotated disk i) p) (hs : Sees f) :
    ∃ g q, At C g (rotated disk (i + 1)) q ∧ Sees g ∧
      rot13Loop C .succeeding (i :: is) f = rot13Loop C .succeeding is g := by
  have hlen : i < (rotated disk i).length := by rwa [length_rotated]
  obtain ⟨hget, hstore⟩ := rotated_succ hi
  have hbyte : (rotated disk i)[i] = disk[i] := by
    rw [List.getElem?_eq_getElem hlen] at hget
    exact Option.some.inj hget
  obtain ⟨f₁, hseek₁, hat₁, hs₁⟩ := h.seek hlen.le (by omega)
  obtain ⟨f₂, hread, hat₂, hs₂⟩ := hat₁.readc hC (hs₁ hs) hlen
  obtain ⟨f₃, hseek₃, hat₃, hs₃⟩ := hat₂.seek hlen.le (by omega)
  obtain ⟨f₄, hwrite, hat₄, hsize⟩ := hat₃.writec hC ((rot13 disk[i]).toNat : ℤ)
  rw [toChar_toNat, hstore] at hat₄
  rw [hbyte] at hread
  have hne : ∀ n : ℕ, ¬ (n : ℤ) = -1 := fun n => by omega
  refine ⟨f₄, i + 1, hat₄, ?_, ?_⟩
  · have := hs₃ hs₂
    rw [Sees, hat₃.contents, length_rotated] at this
    rw [Sees, hat₄.contents, length_rotated, hsize]
    exact this
  · rw [rot13Loop, hseek₁, ok_bind]
    simp only [if_neg (hne i)]
    rw [hread, ok_bind]
    simp only [if_neg (hne _)]
    rw [hseek₃, ok_bind]
    simp only [if_neg (hne i), toChar_toNat]
    rw [hwrite, ok_bind]
    simp only [if_neg (hne _)]

/-- **The loop** over the rest of the file. -/
theorem rot13Loop_spec (hC : 0 < C) (hlt : disk.length < 2 ^ 31) :
    ∀ (n i : ℕ) {f : Io300File Os} {p : ℕ}, i + n = disk.length → At C f (rotated disk i) p → Sees f →
    ∃ g q, rot13Loop C .succeeding (List.range' i n) f = .ok (0, g) ∧ At C g (disk.map rot13) q
  | 0, i, f, p, hn, h, _ => by
    have hn : disk.length ≤ i := hn.ge
    have hall : rotated disk i = disk.map rot13 := by
      rw [rotated, List.take_of_length_le hn, List.drop_eq_nil_of_le hn, List.append_nil]
    exact ⟨f, p, rfl, hall ▸ h⟩
  | n + 1, i, f, p, hn, h, hs => by
    obtain ⟨g, q, hat, hsees, hround⟩ :=
      rot13Loop_cons (List.range' (i + 1) n) hC (by omega) hlt h hs
    obtain ⟨k, q', hloop, hk⟩ := rot13Loop_spec hC hlt n (i + 1) (by omega) hat hsees
    exact ⟨k, q', by rw [List.range'_succ, hround, hloop], hk⟩

/-- **`rot13.c`** replaces every byte of the file. -/
theorem rot13Main_eq (hC : 0 < C) (hg : garbage.length = C) (hlt : disk.length < 2 ^ 31) :
    rot13Main C .succeeding disk garbage = .ok (0, disk.map rot13) := by
  obtain ⟨f, hopen, -, -, f₁, hsize, hat, hs⟩ := open_at disk hg
  have h0 : rotated disk 0 = disk := rfl
  obtain ⟨g, q, hloop, hat'⟩ := rot13Loop_spec hC hlt disk.length 0 (Nat.zero_add _)
    (h0.symm ▸ hat) hs
  obtain ⟨k, hclose, hdata⟩ := hat'.close
  rw [← List.range_eq_range'] at hloop
  rw [rot13Main, hopen, ok_bind, hsize, ok_bind]
  simp only [if_neg (show ¬ (disk.length : ℤ) = -1 by omega), Int.toNat_natCast]
  rw [hloop, ok_bind]
  simp only
  rw [hclose, ok_bind, hdata]
  rfl

/-- **In-place encryption.** The program exits with 0 and replaces every byte of the file by its
    cipher; run again, it restores the file. -/
theorem rot13Main_spec (C : ℕ) (hC : 4 ≤ C) (disk garbage garbage' : List UInt8)
    (hg : garbage.length = C) (hg' : garbage'.length = C) (hlt : disk.length < 2 ^ 31) :
    ∃ out : List UInt8, rot13Main C .succeeding disk garbage = .ok (0, out) ∧
      out.length = disk.length ∧
      (∀ i : ℕ, out[i]? = disk[i]?.map rot13) ∧
      rot13Main C .succeeding out garbage' = .ok (0, disk) := by
  refine ⟨disk.map rot13, rot13Main_eq (by omega) hg hlt, List.length_map _,
    fun i => List.getElem?_map, ?_⟩
  rw [rot13Main_eq (by omega) hg' (by rwa [List.length_map]), List.map_map]
  have hid : rot13 ∘ rot13 = id := funext rot13_rot13
  rw [hid, List.map_id]

theorem rot13Main_spec_hello : ∃ out : List UInt8,
    rot13Main 4 .succeeding [72, 101, 108, 108, 111, 33] [0, 0, 0, 0] = .ok (0, out) ∧
      out.length = 6 ∧ (∀ i : ℕ, out[i]? = ([72, 101, 108, 108, 111, 33] : List UInt8)[i]?.map rot13) ∧
      rot13Main 4 .succeeding out [1, 2, 3, 4] = .ok (0, [72, 101, 108, 108, 111, 33]) :=
  rot13Main_spec 4 (by decide) [72, 101, 108, 108, 111, 33] [0, 0, 0, 0] [1, 2, 3, 4] rfl rfl (by decide)

end CProj.FileIO.Student
