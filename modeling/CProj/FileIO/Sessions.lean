/-
  Whole sessions on `student.c`, when every system call succeeds.

  `Good` relates a handle to the logical file of its session: the file the handle stands for is
  the logical one.  Every call preserves it (`step_good`), provided a read at or past the end of
  the file finds no garbage in the window (`ReadsClean`) and a block write meets no short window
  (`WritesFull`).  From it follow what reads return inside the file and at its end, what closing
  leaves on disk, when `check_invariants` aborts, and that read-only sessions cannot be told from
  sessions on `naive.c`.
-/
import CProj.FileIO.Naive
import CProj.FileIO.BlockWrite

namespace CProj.FileIO.Student

open Io300File

variable {C : ℕ}

/-- The handle of a session is good and stands for the logical file. -/
structure Good (C : ℕ) (s : Session) : Prop where
  ok : Ok C s.f
  contents : s.file.contents = s.f.contents
  head : s.file.head = s.f.head

/-- The cached size does not hide bytes of the file from a read at the head. -/
def Visible (s : Session) : Prop :=
  s.file.head < s.file.contents.length → (s.file.head : ℤ) ≤ s.f.fileSize

/-- At or past the end of the file, a read at the head finds the cached size exceeded or the
    window empty. -/
def CleanEnd (s : Session) : Prop :=
  s.file.contents.length ≤ s.file.head →
    s.f.fileSize < s.file.head ∨ s.file.head = s.f.cacheEnd

/-- The call, if it reads anything, finds no garbage. -/
def ReadsClean (s : Session) : Op → Prop
  | .readc => CleanEnd s
  | .read sz => sz = 0 ∨ CleanEnd s
  | _ => True

/-- The call, if it writes a block, meets no short window below the cached size. -/
def WritesFull (C : ℕ) (s : Session) : Op → Prop
  | .write buff => WindowsFull C s.f buff.length
  | _ => True

/-- The call, if it seeks, stays in the file. -/
def InFile (s : Session) : Op → Prop
  | .seek pos => 0 ≤ pos ∧ pos ≤ s.file.contents.length
  | _ => True

/-! ## One call -/

section
variable {s : Session} {fuel : ℕ}

/-- A read that finds no garbage reads from a valid window, or nothing. -/
theorem Good.valid_of_clean (h : Good C s) (hc : CleanEnd s)
    (hF : (s.f.head : ℤ) ≤ s.f.fileSize) : s.f.Valid := by
  rcases lt_or_ge s.f.head s.f.contents.length with hlt | hge
  · exact h.ok.valid_le hF hlt
  · rw [CleanEnd, h.contents, h.head] at hc
    rcases hc hge with h1 | h1
    · omega
    · exact valid_of_head_eq h1

theorem step_eq {f : Io300File Os} {op : Op} {r : Reply}
    (h : call C .succeeding fuel s.f op = .ok (r, f)) :
    s.step C .succeeding fuel op = .ok ⟨f, s.file.after op r⟩ := by
  rw [Session.step, h]; rfl

/-- **A call that reads.** Every reading call returns, from a good handle to a good handle. -/
theorem readc_ok (fuel : ℕ) (hC : 0 < C) (h : Ok C s.f) : ∃ r g bs,
    call C .succeeding fuel s.f .readc = .ok (r, g) ∧ Reads C s.f g bs ∧
      bs.length = if r.ret = -1 then 0 else 1 := by
  rcases lt_or_ge s.f.fileSize s.f.head with hF | hF
  · exact ⟨⟨-1, []⟩, s.f, [], by rw [call, io300Readc_past h.toWin h.head_le_end hF]; rfl, .refl h,
      rfl⟩
  · rcases io300Readc_spec hC h hF with ⟨b, g, hg, hr⟩ | ⟨g, hg, hr, -⟩
    · refine ⟨⟨b.toNat, []⟩, g, [b], by rw [call, hg]; rfl, hr, ?_⟩
      rw [if_neg (by simp only; omega)]; rfl
    · exact ⟨⟨-1, []⟩, g, [], by rw [call, hg]; rfl, hr, rfl⟩

theorem read_ok (hC : 0 < C) (h : Ok C s.f) {sz : ℕ} (hfuel : sz < fuel) : ∃ bs g,
    call C .succeeding fuel s.f (.read sz) = .ok (⟨bs.length, bs⟩, g) ∧ Reads C s.f g bs := by
  rcases lt_or_ge s.f.fileSize s.f.head with hF | hF
  · exact ⟨[], s.f, by rw [call, io300Read_past h.toWin h.head_le_end hF]; rfl, .refl h⟩
  · obtain ⟨g, bs, hg, hr, -⟩ := io300Read_spec hC h hF hfuel
    exact ⟨bs, g, by rw [call, hg]; rfl, hr⟩

theorem Reads.sized {f g : Io300File Os} {bs : List UInt8} (h : Reads C f g bs) (hs : Sized f) :
    Sized g := by
  have hsize := h.fileSize
  have hhead := h.head
  refine ⟨hsize ▸ hs.size_le.trans (by exact_mod_cast h.data), fun hF => ⟨h.ok.head_le_end, ?_⟩⟩
  exact h.valid (hs.valid (by omega)).2

/-- **Calls keep handles good**, and return, unless a block write meets a short window. -/
theorem call_ok (hC : 0 < C) (h : Ok C s.f) {op : Op} (hop : op.NonNeg) (hfuel : op.size < fuel)
    (hw : WritesFull C s op) :
    ∃ r g, call C .succeeding fuel s.f op = .ok (r, g) ∧ Ok C g ∧
      (s.file.contents = s.f.contents → InFile s op → Sized s.f → Sized g) := by
  cases op with
  | seek pos =>
    obtain ⟨g, hg, hok, -, -, hF, -, hv, hdata⟩ := io300Seek_spec h.toWin h.head_le_end hop
    refine ⟨_, g, by rw [call, hg]; rfl, hok, fun hcont hin hs =>
      ⟨?_, fun _ => ⟨hok.head_le_end, hv⟩⟩⟩
    have h1 := hs.size_le
    have h2 : s.f.os.data.length ≤ s.f.contents.length := data_le_contents
    have h3 : pos ≤ s.f.contents.length := hcont ▸ hin.2
    rw [hF, hdata]
    omega
  | readc =>
    obtain ⟨r, g, bs, hg, hr, -⟩ := readc_ok fuel hC h
    exact ⟨r, g, hg, hr.ok, fun _ _ => hr.sized⟩
  | read sz =>
    obtain ⟨bs, g, hg, hr⟩ := read_ok hC h hfuel
    exact ⟨_, g, hg, hr.ok, fun _ _ => hr.sized⟩
  | writec ch =>
    obtain ⟨g, hg, hok⟩ := io300Writec_spec hC h ch
    exact ⟨_, g, by rw [call, hg]; rfl, hok.ok, fun _ _ => hok.sized⟩
  | write buff =>
    obtain ⟨g, hg, hok⟩ := io300Write_spec hC h hw hfuel
    exact ⟨_, g, by rw [call, hg]; rfl, hok.ok, fun _ _ => hok.sized⟩

/-- What a read leaves, if it finds no garbage. -/
theorem Good.reads (h : Good C s) {g : Io300File Os} {bs : List UInt8} (hr : Reads C s.f g bs)
    (hv : bs = [] ∨ s.f.Valid) {l : Logical} (hl : l.contents = s.file.contents)
    (hh : l.head = s.file.head + bs.length) : Good C ⟨g, l⟩ :=
  ⟨hr.ok, by rw [hl, h.contents, hr.contents hv], by rw [hh, hr.head, h.head]⟩

/-- **Calls follow the logical file.** -/
theorem step_good (hC : 0 < C) (h : Good C s) {op : Op} (hop : op.NonNeg) (hfuel : op.size < fuel)
    (hr : ReadsClean s op) {s' : Session} (hs : s.step C .succeeding fuel op = .ok s') :
    Good C s' := by
  cases op with
  | seek pos =>
    obtain ⟨g, hg, hok, hcont, hhead, -⟩ := io300Seek_spec h.ok.toWin h.ok.head_le_end hop
    have hcall : call C .succeeding fuel s.f (.seek pos) = .ok (⟨toInt pos, []⟩, g) := by
      rw [call, hg]; rfl
    cases (step_eq hcall).symm.trans hs
    exact ⟨hok, h.contents.trans hcont.symm, hhead.symm⟩
  | readc =>
    rcases lt_or_ge s.f.fileSize s.f.head with hF | hF
    · have hcall : call C .succeeding fuel s.f .readc = .ok (⟨-1, []⟩, s.f) := by
        rw [call, io300Readc_past h.ok.toWin h.ok.head_le_end hF]; rfl
      cases (step_eq hcall).symm.trans hs
      exact ⟨h.ok, h.contents, h.head⟩
    · obtain ⟨r, g, bs, hg, hreads, hlen⟩ := readc_ok fuel hC h.ok
      cases (step_eq hg).symm.trans hs
      exact h.reads hreads (Or.inr (h.valid_of_clean hr hF)) rfl (by rw [hlen]; rfl)
  | read sz =>
    have hfuel' : sz < fuel := hfuel
    rcases lt_or_ge s.f.fileSize s.f.head with hF | hF
    · have hcall : call C .succeeding fuel s.f (.read sz) = .ok (⟨0, []⟩, s.f) := by
        rw [call, io300Read_past h.ok.toWin h.ok.head_le_end hF]; rfl
      cases (step_eq hcall).symm.trans hs
      exact ⟨h.ok, h.contents, h.head⟩
    · obtain ⟨g, bs, hg, hreads, hlen, -⟩ := io300Read_spec hC h.ok hF hfuel'
      have hcall : call C .succeeding fuel s.f (.read sz) = .ok (⟨bs.length, bs⟩, g) := by
        rw [call, hg]; rfl
      cases (step_eq hcall).symm.trans hs
      refine h.reads hreads ?_ rfl (by simp [Logical.after])
      rcases hr with hsz | hr
      · left; exact List.eq_nil_of_length_eq_zero (by omega)
      · exact Or.inr (h.valid_of_clean hr hF)
  | writec ch =>
    obtain ⟨g, hg, hok⟩ := io300Writec_spec hC h.ok ch
    have hcall : call C .succeeding fuel s.f (.writec ch) = .ok (⟨ch, []⟩, g) := by
      rw [call, hg]; rfl
    cases (step_eq hcall).symm.trans hs
    refine ⟨hok.ok, ?_, ?_⟩
    · rw [hok.contents]
      simp only [Logical.after, h.contents, h.head]
    · rw [hok.head]
      simp only [Logical.after, h.head, List.length_singleton]
  | write buff =>
    by_cases hw : WindowsFull C s.f buff.length
    · obtain ⟨g, hg, hok⟩ := io300Write_spec hC h.ok hw hfuel
      have hcall : call C .succeeding fuel s.f (.write buff) = .ok (⟨buff.length, []⟩, g) := by
        rw [call, hg]; rfl
      cases (step_eq hcall).symm.trans hs
      refine ⟨hok.ok, ?_, ?_⟩
      · rw [hok.contents]
        simp only [Logical.after, h.contents, h.head]
      · rw [hok.head]
        simp only [Logical.after, h.head, Int.toNat_natCast]
    · rw [Session.step, call, io300Write_error hC h.ok hw hfuel] at hs
      cases hs

/-- At the end of the file, the window of a sized handle is empty or not read. -/
theorem Good.cleanEnd (h : Good C s) (hs : Sized s.f) : CleanEnd s := by
  rw [CleanEnd, h.contents, h.head]
  intro hle
  rcases lt_or_ge s.f.fileSize s.f.head with hF | hF
  · exact Or.inl hF
  · obtain ⟨h1, hv⟩ := hs.valid hF
    have := hv.end_le h.ok.toWin h1
    exact Or.inr (by omega)

/-- **Calls that stay in the file** return, follow the logical file and keep the cached size in
    the file. -/
theorem step_sized (hC : 0 < C) (h : Good C s) (hs : Sized s.f) {op : Op} (hop : InFile s op)
    (hfuel : op.size < fuel) :
    ∃ s', s.step C .succeeding fuel op = .ok s' ∧ Good C s' ∧ Sized s'.f := by
  have hw : WritesFull C s op := by
    cases op with
    | write buff => exact hs.windowsFull h.ok buff.length
    | _ => trivial
  have hr : ReadsClean s op := by
    cases op with
    | readc => exact h.cleanEnd hs
    | read sz => exact Or.inr (h.cleanEnd hs)
    | _ => trivial
  have hnn : op.NonNeg := by
    cases op with
    | seek pos => exact hop.1
    | _ => trivial
  obtain ⟨r, g, hg, -, hsized⟩ := call_ok hC h.ok hnn hfuel hw
  have hstep := step_eq hg
  exact ⟨_, hstep, step_good hC h hnn hfuel hr hstep, hsized h.contents hop hs⟩

end

/-! ## Whole sessions -/

/-- The sessions considered: no negative seeks, and loops may run as often as there are bytes to
    transfer. -/
def Plain (fuel : ℕ) (ops : List Op) : Prop := ∀ op ∈ ops, op.NonNeg ∧ op.size < fuel

/-- The state `s` is reached by opening a file with the contents `disk` and making the calls
    `ops`, all of which meet `P`. -/
def Reached (C fuel : ℕ) (disk garbage : List UInt8) (P : Session → Op → Prop) (ops : List Op)
    (s : Session) : Prop :=
  ∃ s₀, Session.start C .succeeding disk garbage = .ok s₀ ∧
    Meets (Session.step C .succeeding fuel) P s₀ ops ∧
    run (Session.step C .succeeding fuel) s₀ ops = .ok s

section
variable {fuel : ℕ} {disk garbage : List UInt8} {ops : List Op} {s : Session}

/-- **The start of a session.** -/
theorem start_spec (disk : List UInt8) (hg : garbage.length = C) :
    ∃ s₀, Session.start C .succeeding disk garbage = .ok s₀ ∧ Good C s₀ ∧ Sized s₀.f ∧
      s₀.f.dirty = false ∧ s₀.file = ⟨disk, 0⟩ ∧ s₀.f.fileSize = disk.length ∧
        s₀.f.os.data = disk := by
  obtain ⟨f, hf, hok, hcont, hhead, hF, hd, hdata⟩ := io300Open_spec disk hg
  refine ⟨⟨f, ⟨disk, 0⟩⟩, by rw [Session.start, hf]; rfl, ⟨hok, hcont.symm, hhead.symm⟩,
    ⟨by rw [hF, hdata], fun _ => ⟨hok.head_le_end, hok.clean_valid hd⟩⟩, hd, rfl, hF, hdata⟩

/-- **Every session without garbage reads follows its logical file.** -/
theorem Reached.good (hC : 0 < C) (hg : garbage.length = C) (hops : Plain fuel ops)
    (hs : Reached C fuel disk garbage ReadsClean ops s) : Good C s := by
  obtain ⟨s₀, hstart, hmeets, hrun⟩ := hs
  obtain ⟨s₁, hstart', hgood, -⟩ := start_spec disk hg
  cases hstart.symm.trans hstart'
  exact run_inv (Good C) (fun s op s' h hop hr hs' => step_good hC h hop.1 hop.2 hr hs') hgood hops
    hmeets hrun

/-- Every session that stays in the file reaches a good handle. -/
theorem reached_good (disk : List UInt8) (ops : List Op) (hC : 0 < C) (hg : garbage.length = C)
    (hfuel : ∀ op ∈ ops, op.size < fuel) :
    ∃ s₀, Session.start C .succeeding disk garbage = .ok s₀ ∧ s₀.file = ⟨disk, 0⟩ ∧
      (Meets (Session.step C .succeeding fuel) InFile s₀ ops →
        ∃ s, run (Session.step C .succeeding fuel) s₀ ops = .ok s ∧ Good C s ∧ Sized s.f) := by
  obtain ⟨s₀, hstart, hgood, hsized, -, hfile, -⟩ := start_spec disk hg
  refine ⟨s₀, hstart, hfile, fun hmeets => ?_⟩
  have hstep : ∀ (s : Session) op, Good C s ∧ Sized s.f → op.size < fuel → InFile s op →
      ∃ s', s.step C .succeeding fuel op = .ok s' ∧ Good C s' ∧ Sized s'.f :=
    fun s op h hop hin => step_sized hC h.1 h.2 hin hop
  exact run_ok _ hstep ⟨hgood, hsized⟩ hfuel hmeets

theorem Reached.sized (hC : 0 < C) (hg : garbage.length = C) (hfuel : ∀ op ∈ ops, op.size < fuel)
    (hs : Reached C fuel disk garbage InFile ops s) : Good C s ∧ Sized s.f := by
  obtain ⟨s₀, hstart, hmeets, hrun⟩ := hs
  obtain ⟨s₁, hstart', -, hreach⟩ := reached_good disk ops hC hg hfuel
  cases hstart.symm.trans hstart'
  obtain ⟨t, hrun', ht⟩ := hreach hmeets
  cases hrun.symm.trans hrun'
  exact ht

end

/-! ## What reads return inside the file -/

/-- A read at a head inside the file returns the bytes of the file. -/
def NoEarlyEof (C : ℕ) (s : Session) : Prop :=
  s.file.head < s.file.contents.length →
    (∃ b g, s.file.contents[s.file.head]? = some b ∧
      io300Readc C .succeeding s.f = .ok ((b.toNat : ℤ), g)) ∧
    ∀ fuel sz, sz < fuel → ∃ g, io300Read C .succeeding fuel s.f sz =
      .ok (((min sz (s.file.contents.length - s.file.head) : ℕ),
        slice s.file.contents s.file.head (min sz (s.file.contents.length - s.file.head))), g)

/-- What a read leaves to be closed is the file the handle stood for. -/
def closed (C : ℕ) (f : Io300File Os) : Except Abort (List UInt8) := do
  let (_, f) ← io300Close C .succeeding f
  return f.os.data

section
variable {s : Session} {f : Io300File Os}

theorem closed_eq (h : Win C f) (hle : f.head ≤ f.cacheEnd) : closed C f = .ok f.contents := by
  obtain ⟨g, hg, hdata⟩ := io300Close_spec h hle
  rw [closed, hg, ok_bind, ← hdata]; rfl

/-- **Reads see the file exactly when the cached size does not hide it.** -/
theorem Good.noEarlyEof_iff (hC : 0 < C) (h : Good C s) : NoEarlyEof C s ↔ Visible s := by
  constructor
  · intro hn hlt
    by_contra hF
    obtain ⟨b, g, -, hg⟩ := (hn hlt).1
    rw [h.head] at hF
    rw [io300Readc_past h.ok.toWin h.ok.head_le_end (by omega)] at hg
    have : (-1 : ℤ) = b.toNat := congrArg Prod.fst (Except.ok.inj hg)
    omega
  · intro hv hlt
    have hF : (s.f.head : ℤ) ≤ s.f.fileSize := h.head ▸ hv hlt
    rw [h.contents, h.head] at hlt
    have hvalid := h.ok.valid_le hF hlt
    rw [h.contents, h.head]
    refine ⟨?_, fun fuel sz hfuel => ?_⟩
    · rcases io300Readc_spec hC h.ok hF with ⟨b, g, hg, hr⟩ | ⟨g, -, -, hend, -⟩
      · refine ⟨b, g, ?_, hg⟩
        have hb := congrArg List.head? (hr.bytes hvalid)
        rw [slice, List.length_singleton, List.head?_take, if_neg one_ne_zero,
          List.head?_drop] at hb
        exact hb.symm
      · omega
    · obtain ⟨g, bs, hg, -, -, hbytes, -⟩ := io300Read_spec hC h.ok hF hfuel
      have hb := hbytes hvalid
      refine ⟨g, ?_⟩
      rw [hg, slice_min_length, hb, length_slice]

end

/-! ## Results -/

/-- A state that is reached, with what `g` computes of it. -/
theorem exists_reached (C fuel : ℕ) (disk garbage : List UInt8) (P : Session → Op → Prop)
    (ops : List Op) {β : Type} (g : Session → β) (b : β)
    (hP : ∀ s₀, Meets (Session.step C .succeeding fuel) P s₀ ops)
    (h : ((Session.start C .succeeding disk garbage).bind
      fun s₀ => run (Session.step C .succeeding fuel) s₀ ops).map g = .ok b) :
    ∃ s, Reached C fuel disk garbage P ops s ∧ g s = b := by
  cases hs₀ : Session.start C .succeeding disk garbage with
  | error e => rw [hs₀] at h; cases h
  | ok s₀ =>
    rw [hs₀] at h
    cases hs : run (Session.step C .succeeding fuel) s₀ ops with
    | error e => rw [Except.bind, hs] at h; cases h
    | ok s =>
      rw [Except.bind, hs] at h
      exact ⟨s, ⟨s₀, hs₀, hP s₀, hs⟩, Except.ok.inj h⟩

section
variable {fuel : ℕ} {disk garbage : List UInt8} {ops : List Op} {s : Session}

/-- **Reads inside the file.** -/
theorem reads_inside_iff (hC : 0 < C) (hg : garbage.length = C) (hops : Plain fuel ops)
    (hs : Reached C fuel disk garbage ReadsClean ops s) : NoEarlyEof C s ↔ Visible s :=
  (hs.good hC hg hops).noEarlyEof_iff hC

theorem reads_inside_after_rewind : ∃ s,
    Reached 4 2 [] [0, 0, 0, 0] ReadsClean [.writec 97, .seek 0] s ∧ Visible s ∧
      NoEarlyEof 4 s := by
  obtain ⟨s, hs, hv⟩ := exists_reached 4 2 [] [0, 0, 0, 0] ReadsClean [.writec 97, .seek 0]
    (fun s => (s.file.head, s.f.fileSize)) (0, 0)
    (fun _ => ⟨trivial, fun _ _ => ⟨trivial, fun _ _ => trivial⟩⟩)
    (by decide)
  obtain ⟨h1, h2⟩ := Prod.ext_iff.1 hv
  simp only at h1 h2
  have hvis : Visible s := fun _ => by omega
  exact ⟨s, hs, hvis, (reads_inside_iff (by decide) rfl (by simp [Plain, Op.NonNeg, Op.size]) hs).2 hvis⟩

/-- Two bytes are written to an empty file and the first is read back; the second one is not
    found. -/
theorem reads_inside_hidden : ∃ s,
    Reached 4096 1 [] (List.replicate 4096 0) (fun _ _ => True)
      [.writec 97, .writec 98, .seek 0, .readc] s ∧
    s.file = ⟨[97, 98], 1⟩ ∧ ¬ NoEarlyEof 4096 s := by
  obtain ⟨s, hs, hfile⟩ := exists_reached 4096 1 [] (List.replicate 4096 0) (fun _ _ => True)
    [.writec 97, .writec 98, .seek 0, .readc]
    (fun s => (s.file, (io300Readc 4096 .succeeding s.f).map Prod.fst)) (⟨[97, 98], 1⟩, .ok (-1))
    (fun _ => meets_true) (by decide +kernel)
  obtain ⟨h1, h2⟩ := Prod.ext_iff.1 hfile
  simp only at h1 h2
  refine ⟨s, hs, h1, fun h => ?_⟩
  obtain ⟨b, g, -, hg⟩ := (h (by rw [h1]; decide)).1
  rw [hg] at h2
  have : (b.toNat : ℤ) = -1 := Except.ok.inj h2
  omega

/-- **Durability.** A session whose seeks stay in the file runs to its end, and closing leaves the
    logical file on disk. -/
theorem session_durable (disk garbage : List UInt8) (ops : List Op) (hC : 0 < C)
    (hg : garbage.length = C) (hfuel : ∀ op ∈ ops, op.size < fuel) :
    ∃ s₀, Session.start C .succeeding disk garbage = .ok s₀ ∧ s₀.file = ⟨disk, 0⟩ ∧
      (Meets (Session.step C .succeeding fuel) InFile s₀ ops →
        ∃ s f, run (Session.step C .succeeding fuel) s₀ ops = .ok s ∧
          io300Close C .succeeding s.f = .ok (0, f) ∧ f.os.data = s.file.contents) := by
  obtain ⟨s₀, hstart, hfile, hreach⟩ := reached_good disk ops hC hg hfuel
  refine ⟨s₀, hstart, hfile, fun hmeets => ?_⟩
  obtain ⟨s, hrun, hs, -⟩ := hreach hmeets
  obtain ⟨f, hf, hdata⟩ := io300Close_spec hs.ok.toWin hs.ok.head_le_end
  exact ⟨s, f, hrun, hf, by rw [hdata, hs.contents]⟩

theorem session_durable_rewrite : ∃ s₀ s f,
    Session.start 4 .succeeding [1, 2, 3] [0, 0, 0, 0] = .ok s₀ ∧
    run (Session.step 4 .succeeding 4) s₀ [.read 2, .write [7, 8, 9], .seek 0, .writec 5] = .ok s ∧
    io300Close 4 .succeeding s.f = .ok (0, f) ∧ f.os.data = s.file.contents := by
  have hfuel : ∀ op ∈ [Op.read 2, .write [7, 8, 9], .seek 0, .writec 5], op.size < 4 := by decide
  obtain ⟨s₀, hstart, -, h⟩ := session_durable [1, 2, 3] [0, 0, 0, 0] _ (by decide) rfl hfuel
  obtain ⟨s, f, hrun, hclose, hdata⟩ := h ⟨trivial, fun _ _ => ⟨trivial, fun _ _ =>
    ⟨⟨le_rfl, Int.natCast_nonneg _⟩, fun _ _ => ⟨trivial, fun _ _ => trivial⟩⟩⟩⟩
  exact ⟨s₀, s, f, hstart, hrun, hclose, hdata⟩

/-- A clean handle of `student.c` and the open file of `naive.c` at the same place of the file
    `disk`, the cached size not below its end. -/
structure Same (C : ℕ) (disk : List UInt8) (f : Io300File Os) (os : Os) : Prop where
  ok : Ok C f
  dirty : f.dirty = false
  data : f.os.data = disk
  naive_data : os.data = disk
  head : f.head = os.offset
  size : (disk.length : ℤ) ≤ f.fileSize

theorem Same.reads {f g : Io300File Os} {os : Os} {bs : List UInt8} (h : Same C disk f os)
    (hr : Reads C f g bs) :
    Same C disk g { os with offset := os.offset + bs.length, calls := os.calls + 1 } := by
  have hd := hr.dirty h.dirty
  refine ⟨hr.ok, hd, ?_, h.naive_data, by rw [hr.head, h.head], hr.fileSize ▸ h.size⟩
  rw [← hr.ok.clean hd, hr.contents (Or.inr (h.ok.clean_valid h.dirty)), h.ok.clean h.dirty, h.data]

/-- **One read-only call** is answered alike. -/
theorem Same.call (hC : 0 < C) {f : Io300File Os} {os : Os} (h : Same C disk f os) {op : Op}
    (hop : op.ReadOnly) (hfuel : op.size < fuel) : ∃ r g os',
    Student.call C .succeeding fuel f op = .ok (r, g) ∧
      Naive.call .succeeding os op = .ok (r, os') ∧ Same C disk g os' := by
  have hv := h.ok.clean_valid h.dirty
  have hcont : f.contents = os.data := by rw [h.ok.clean h.dirty, h.data, h.naive_data]
  have hpast : f.fileSize < f.head → os.data.length ≤ os.offset := by
    have hsize := h.size
    have hhead := h.head
    rw [h.naive_data]
    omega
  cases op with
  | seek pos =>
    obtain ⟨g, hg, hok, -, hhead, hF, hd, -, hdata⟩ :=
      io300Seek_spec h.ok.toWin h.ok.head_le_end hop
    have hpos : (0 : ℤ) ≤ pos := hop
    refine ⟨_, g, { os with offset := pos.toNat, calls := os.calls + 1 }, by
      rw [Student.call, hg]; rfl, ?_, hok, hd, ?_, h.naive_data, hhead, ?_⟩
    · simp only [Naive.call, Naive.io300Seek, lseek]
      rw [if_neg (by simp [Sys.succeeding]; omega)]
    · rw [hdata, hcont, h.naive_data]
    · rw [hF]
      exact h.size.trans (le_max_left _ _)
  | readc =>
    have hread : ∀ bs, slice os.data os.offset 1 = bs → FileIO.read .succeeding os 1 =
        (some bs, { os with offset := os.offset + bs.length, calls := os.calls + 1 }) := by
      rintro _ rfl; rfl
    have hend : os.data.length ≤ os.offset → Naive.call .succeeding os .readc =
        .ok (⟨-1, []⟩, { os with offset := os.offset + 0, calls := os.calls + 1 }) := by
      intro hle
      rw [Naive.call, Naive.io300Readc, hread [] (slice_of_length_le 1 hle)]; rfl
    rcases lt_or_ge f.fileSize f.head with hF | hF
    · exact ⟨⟨-1, []⟩, f, _,
        by rw [Student.call, io300Readc_past h.ok.toWin h.ok.head_le_end hF]; rfl, hend (hpast hF),
        h.reads (.refl h.ok)⟩
    · rcases io300Readc_spec hC h.ok hF with ⟨b, g, hg, hr⟩ | ⟨g, hg, hr, hle, -⟩
      · refine ⟨⟨b.toNat, []⟩, g, _, by rw [Student.call, hg]; rfl, ?_, h.reads hr⟩
        have hb := hr.bytes hv
        rw [hcont, h.head] at hb
        rw [Naive.call, Naive.io300Readc, hread [b] hb.symm]
      · rw [hcont, h.head] at hle
        exact ⟨⟨-1, []⟩, g, _, by rw [Student.call, hg]; rfl, hend hle, h.reads hr⟩
  | read sz =>
    have hfuel' : sz < fuel := hfuel
    have hread : Naive.call .succeeding os (.read sz) =
        .ok (⟨(slice os.data os.offset sz).length, slice os.data os.offset sz⟩, { os with
          offset := os.offset + (slice os.data os.offset sz).length, calls := os.calls + 1 }) := rfl
    rcases lt_or_ge f.fileSize f.head with hF | hF
    · rw [slice_of_length_le sz (hpast hF)] at hread
      exact ⟨_, f, _, by rw [Student.call, io300Read_past h.ok.toWin h.ok.head_le_end hF]; rfl,
        hread, h.reads (.refl h.ok)⟩
    · obtain ⟨g, bs, hg, hr, -, hbytes, -⟩ := io300Read_spec hC h.ok hF hfuel'
      have hb := hbytes hv
      rw [hcont, h.head] at hb
      rw [← hb] at hread
      exact ⟨_, g, _, by rw [Student.call, hg]; rfl, hread, h.reads hr⟩
  | writec ch => exact hop.elim
  | write buff => exact hop.elim

/-- **Read-only sessions refine the uncached ones.** Every call is answered as `naive.c` answers
    it, and closing leaves the file as it was. -/
theorem readOnly_refines_naive (hC : 0 < C) (hg : garbage.length = C)
    (hops : ∀ op ∈ ops, op.ReadOnly ∧ op.size < fuel) :
    ∃ f rs f' os', io300Open C .succeeding disk garbage = .ok f ∧
      outputs (call C .succeeding fuel) f ops = .ok (rs, f') ∧
      outputs (Naive.call .succeeding) ⟨disk, 0, 0⟩ ops = .ok (rs, os') ∧
      closed C f' = .ok disk := by
  obtain ⟨f, hf, hok, -, hhead, hF, hd, hdata⟩ := io300Open_spec disk hg
  have hstep : ∀ f os (op : Op), Same C disk f os → op.ReadOnly ∧ op.size < fuel → ∃ r g os',
      call C .succeeding fuel f op = .ok (r, g) ∧ Naive.call .succeeding os op = .ok (r, os') ∧
        Same C disk g os' :=
    fun f os op h hop => h.call hC hop.1 hop.2
  obtain ⟨rs, f', os', h1, h2, h3⟩ := outputs_sim hstep
    (⟨hok, hd, hdata, rfl, hhead, hF.ge⟩ : Same C disk f ⟨disk, 0, 0⟩) hops
  refine ⟨f, rs, f', os', hf, h1, h2, ?_⟩
  rw [closed_eq h3.ok.toWin h3.ok.head_le_end, h3.ok.clean h3.dirty, h3.data]

theorem readOnly_refines_naive_small : ∃ f rs f' os',
    io300Open 4 .succeeding [1, 2, 3, 4, 5] [0, 0, 0, 0] = .ok f ∧
      outputs (call 4 .succeeding 4) f [.read 3, .readc, .seek 9, .readc] = .ok (rs, f') ∧
      outputs (Naive.call .succeeding) ⟨[1, 2, 3, 4, 5], 0, 0⟩ [.read 3, .readc, .seek 9, .readc] =
        .ok (rs, os') ∧
      closed 4 f' = .ok [1, 2, 3, 4, 5] :=
  readOnly_refines_naive (by decide) rfl (by simp [Op.ReadOnly, Op.size])

end

end CProj.FileIO.Student
