/-
  Handles as the programs that use them see them, when every system call succeeds.

  A handle stands `At` a position of a file.  Each call of `io300.h` is described by what it
  returns, and by the file and the position afterwards; what a read returns is known of a handle
  that sees the whole file (`Sees`).
-/
import CProj.FileIO.Flush
import CProj.FileIO.Sessions

namespace CProj.FileIO.Student

open Io300File

variable {C : ℕ} {f : Io300File Os} {D disk garbage buff : List UInt8} {p fuel : ℕ}

/-- A byte that has been read is the byte that is written. -/
theorem toChar_toNat (b : UInt8) : toChar (b.toNat : ℤ) = b := by
  have hlt : ((b.toNat : ℤ) % 256).toNat = b.toNat := by
    have := b.toNat_lt
    omega
  rw [toChar, hlt, UInt8.ofNat_toNat]

/-- The handle stands at the position `p` of the file `D`. -/
structure At (C : ℕ) (f : Io300File Os) (D : List UInt8) (p : ℕ) : Prop where
  ok : Ok C f
  sized : Sized f
  contents : f.contents = D
  head : f.head = p

/-- The cached size does not hide a part of the file. -/
def Sees (f : Io300File Os) : Prop := (f.contents.length : ℤ) ≤ f.fileSize

/-- **Opening a file**, and asking for its size. -/
theorem open_at (disk : List UInt8) (hg : garbage.length = C) :
    ∃ f, io300Open C .succeeding disk garbage = .ok f ∧ At C f disk 0 ∧ Sees f ∧
      ∃ g, io300Filesize C .succeeding f = .ok (disk.length, g) ∧ At C g disk 0 ∧ Sees g := by
  obtain ⟨f, hf, hok, hcont, hhead, hF, hd, hdata⟩ := io300Open_spec disk hg
  have hsized : Sized f := ⟨by rw [hF, hdata], fun _ => ⟨hok.head_le_end, hok.clean_valid hd⟩⟩
  have hsees : Sees f := by rw [Sees, hcont, hF]
  refine ⟨f, hf, ⟨hok, hsized, hcont, hhead⟩, hsees,
    { f with os := { f.os with calls := f.os.calls + 1 } },
    ?_, ⟨hok.calls _, ?_, hcont, hhead⟩, hsees⟩
  · rw [io300Filesize_eq hok.toWin hok.head_le_end, hdata]
  · exact ⟨hsized.size_le, hsized.valid⟩

/-- **Seeking in the file.** -/
theorem At.seek (h : At C f D p) {q : ℕ} (hq : q ≤ D.length) (hlt : q < 2 ^ 31) :
    ∃ g, io300Seek C .succeeding f q = .ok (q, g) ∧ At C g D q ∧ (Sees f → Sees g) := by
  obtain ⟨g, hg, hok, hcont, hhead, hF, -, hv, hdata⟩ :=
    io300Seek_spec h.ok.toWin h.ok.head_le_end (Int.natCast_nonneg q)
  have hD := h.contents
  have hsize := h.sized.size_le
  have hle : f.os.data.length ≤ f.contents.length := data_le_contents
  rw [(toInt_eq_iff (Int.natCast_nonneg q)).2 (by omega)] at hg
  refine ⟨g, hg, ⟨hok, ⟨?_, fun _ => ⟨hok.head_le_end, hv⟩⟩, hcont.trans hD, hhead⟩, fun hs => ?_⟩
  · rw [hF, hdata, hD]
    rw [hD] at hle
    omega
  · rw [Sees] at hs ⊢
    rw [hcont, hF]
    omega

/-- **Reading a byte** of the file. -/
theorem At.readc (hC : 0 < C) (h : At C f D p) (hs : Sees f) (hp : p < D.length) :
    ∃ g, io300Readc C .succeeding f = .ok ((D[p].toNat : ℤ), g) ∧ At C g D (p + 1) ∧ Sees g := by
  have hD := h.contents
  have hh := h.head
  have hlt : f.head < f.contents.length := by rw [hD, hh]; exact hp
  have hF : (f.head : ℤ) ≤ f.fileSize := by
    rw [Sees] at hs
    omega
  have hv := h.ok.valid_le hF hlt
  rcases io300Readc_spec hC h.ok hF with ⟨b, g, hg, hr⟩ | ⟨-, -, -, hend, -⟩
  swap
  · omega
  have hb : b = D[p] := by
    have hbytes := congrArg List.head? (hr.bytes hv)
    rw [slice, List.length_singleton, List.head?_take, if_neg one_ne_zero, List.head?_drop, hD, hh,
      List.head?_cons, List.getElem?_eq_getElem hp] at hbytes
    exact Option.some.inj hbytes
  have hcont := hr.contents (Or.inr hv)
  rw [hb] at hg
  refine ⟨g, hg, ⟨hr.ok, hr.sized h.sized, hcont.trans hD,
    by rw [hr.head, hh, List.length_singleton]⟩, ?_⟩
  rw [Sees, hcont, hr.fileSize]
  exact hs

/-- **Reading a block** of the file. -/
theorem At.read (hC : 0 < C) (h : At C f D p) (hs : Sees f) (hp : p ≤ D.length) {sz : ℕ}
    (hfuel : sz < fuel) : ∃ g, io300Read C .succeeding fuel f sz =
        .ok ((((slice D p sz).length : ℤ), slice D p sz), g) ∧
      At C g D (p + (slice D p sz).length) ∧ Sees g := by
  have hD := h.contents
  have hh := h.head
  have hF : (f.head : ℤ) ≤ f.fileSize := by
    rw [Sees, hD] at hs
    omega
  have hv := (h.sized.valid hF).2
  obtain ⟨g, bs, hg, hr, -, hbytes, -⟩ := io300Read_spec hC h.ok hF hfuel
  have hb := hbytes hv
  rw [hD, hh] at hb
  have hcont := hr.contents (Or.inr hv)
  refine ⟨g, by rw [hg, hb], ⟨hr.ok, hr.sized h.sized, hcont.trans hD, ?_⟩, ?_⟩
  · rw [hr.head, hh, hb]
  · rw [Sees, hcont, hr.fileSize]
    exact hs

/-- **Writing a byte.** -/
theorem At.writec (hC : 0 < C) (h : At C f D p) (ch : ℤ) :
    ∃ g, io300Writec C .succeeding f ch = .ok (ch, g) ∧
      At C g (store 0 D p [toChar ch]) (p + 1) ∧ g.fileSize = f.fileSize := by
  obtain ⟨g, hg, hw⟩ := io300Writec_spec hC h.ok ch
  refine ⟨g, hg, ⟨hw.ok, hw.sized h.sized, ?_, ?_⟩, hw.fileSize⟩
  · rw [hw.contents, h.contents, h.head]
  · rw [hw.head, h.head, List.length_singleton]

/-- **Writing a block.** -/
theorem At.write (hC : 0 < C) (h : At C f D p) (hfuel : buff.length < fuel) :
    ∃ g, io300Write C .succeeding fuel f buff = .ok ((buff.length : ℤ), g) ∧
      At C g (store 0 D p buff) (p + buff.length) ∧ g.fileSize = f.fileSize := by
  obtain ⟨g, hg, hw⟩ := io300Write_spec hC h.ok (h.sized.windowsFull h.ok buff.length) hfuel
  refine ⟨g, hg, ⟨hw.ok, hw.sized h.sized, ?_, ?_⟩, hw.fileSize⟩
  · rw [hw.contents, h.contents, h.head]
  · rw [hw.head, h.head]

/-- **Closing the file** leaves it on disk. -/
theorem At.close (h : At C f D p) :
    ∃ g, io300Close C .succeeding f = .ok (0, g) ∧ g.os.data = D := by
  obtain ⟨g, hg, hdata⟩ := io300Close_spec h.ok.toWin h.ok.head_le_end
  exact ⟨g, hg, hdata.trans h.contents⟩

end CProj.FileIO.Student
