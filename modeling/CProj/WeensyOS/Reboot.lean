/-
  Soft reboots (`check_keyboard` and `fail` in `weensyos/k-hardware.cc`).

  * The kernel looks at the keyboard on every entry, in the loop of `schedule` and, after a panic, in
    `fail`.  A `Session` is the kernel with its keyboard: `event` is one event of the current process,
    `poll` is one call of `check_keyboard`.
  * A reboot clears the kernel's own memory and calls `kernel` again, in a memory that is otherwise
    what it was (`softReboot`).  `session_reboots`: whatever has been run and typed before, also if the
    kernel has panicked or has nothing to run, the keys for a reboot bring up a freshly booted kernel.
-/
import CProj.WeensyOS.Keyboard
import CProj.WeensyOS.Liveness
import CProj.WeensyOS.NullPage

namespace CProj.WeensyOS

variable {L : Layout} {ramimages : String → Option Elf} {command : Option String} {s s₀ : State}

/-! ## `check_keyboard` -/

/-- The page table that carries the kernel through the reboot, in the pages 1 and 2. -/
def rebootTable (m : Mem) : Mem :=
  (((m.fill 1 0).fill 2 0).set 1 0 (0x2000 ||| PTE_P ||| PTE_W)).set 2 0 (PTE_P ||| PTE_W ||| PTE_PS)

/-- The state in which `kernel_entry` is reached again: the data of the kernel have their first
    values, and those without one are 0.  The memory `m` is what `check_keyboard` finds. -/
def softReboot (m : Mem) : State where
  mem := rebootTable m
  pages := fun _ => 0
  ptable := fun _ => ⟨0, 0, .free, ⟨0, 0, 0, 0, 0, 0, []⟩⟩
  current := 0
  viewer := 0
  spinning := false
  staleFree := false

theorem softReboot_cleared (m : Mem) : Cleared (softReboot m) := ⟨fun _ => rfl, rfl, rfl, rfl⟩

/-! ## Sessions -/

inductive Mode where
  /-- processes run, or `schedule` finds none that can -/
  | up (s : State)
  /-- the kernel is in `fail` -/
  | failed
  /-- a stray access, or a loop that does not end: the keyboard is not looked at any more -/
  | stuck
  /-- `poweroff` -/
  | off

/-- The machine after a fault of the kernel: assertions and panics end in `fail`. -/
def Fault.mode : Fault → Mode
  | .assertion | .panic => .failed
  | _ => .stuck

/-- The machine with its keyboard. -/
structure Session where
  mode : Mode
  keyboard : Keyboard
  /-- (ghost) the bytes read from the keyboard since the kernel was booted -/
  typed : List UInt8

section
variable (L : Layout) (ramimages : String → Option Elf)

/-- The session after `kernel` has been called with a clear keyboard. -/
def Session.boot : Except Fault State → Session
  | .ok s => ⟨.up s, ⟨0, 0⟩, []⟩
  | .error f => ⟨f.mode, ⟨0, 0⟩, []⟩

/-- One event of the current process; there is none while `schedule` spins. -/
def Session.event (x : Session) (ev : Event) : Session :=
  match x.mode with
  | .up s =>
    match step L s ev with
    | .ok s => { x with mode := .up s }
    | .error .spinning => x
    | .error f => { x with mode := f.mode }
  | _ => x

/-- One call of `check_keyboard`, when the memory is `m` and the controller has `data`. -/
def Session.poll (x : Session) (data : Option UInt8) (m : Mem) : Session :=
  match x.mode with
  | .stuck | .off => x
  | _ =>
    match checkKeyboard x.keyboard data with
    | (.none, kb) => { x with keyboard := kb, typed := x.typed ++ data.toList }
    | (.reboot argument, _) => .boot (kernel L ramimages (some argument) (softReboot m))
    | (.poweroff, _) => { x with mode := .off }

/-- A step of the session, where no fork overflows a reference count. -/
inductive Session.Step (x : Session) : Session → Prop
  | event (ev : Event) (hsafe : ∀ s, x.mode = .up s → SafeFork s ev) : Step x (x.event L ev)
  | poll (data : Option UInt8) (m : Mem) : Step x (x.poll L ramimages data m)

/-- The programs of the command can be loaded into a memory that has been cleared. -/
def Bootable (command : Option String) : Prop :=
  ∃ ps, bootPrograms ramimages command = .ok ps ∧ ∀ s s₁, Cleared s → kernelMemory L s = .ok s₁ →
    Meets (setupOne L) (LoadsOne L) (initPtable s₁) ps

end

/-- What holds of every session. -/
structure Session.Sound (L : Layout) (x : Session) : Prop where
  good : ∀ s, x.mode = .up s → ∃ d, Good L d s
  notStuck : x.mode ≠ .stuck
  typed : x.mode ≠ .off → x.keyboard = ((⟨0, 0⟩ : Keyboard).reads x.typed).2

theorem Bootable.boot (h : Bootable L ramimages command) (hcleared : Cleared s) :
    ∃ s₀, kernel L ramimages command s = .ok s₀ ∧ Boot L s₀ := by
  obtain ⟨ps, hps, hloads⟩ := h
  exact kernel_boot ramimages command hcleared hps fun s₁ => hloads s s₁ hcleared

theorem Session.sound_boot (h : Boot L s) : (Session.boot (.ok s)).Sound L := by
  refine ⟨fun s' hs' => ?_, Mode.noConfusion, fun _ => rfl⟩
  cases hs'
  exact ⟨_, h.good⟩

variable {x y : Session}

theorem Session.Sound.event (h : x.Sound L) {ev : Event}
    (hsafe : ∀ s, x.mode = .up s → SafeFork s ev) : (x.event L ev).Sound L := by
  obtain ⟨mode, kb, typed⟩ := x
  rw [Session.event]
  cases mode with
  | up s =>
    obtain ⟨d, hgood⟩ := h.good s rfl
    simp only
    rcases hres : step L s ev with f | s'
    · rcases hgood.step_error (hsafe s rfl) hres with rfl | rfl | rfl
      · exact ⟨fun s' hs' => Mode.noConfusion hs', Mode.noConfusion,
          fun _ => h.typed Mode.noConfusion⟩
      · exact ⟨fun s' hs' => Mode.noConfusion hs', Mode.noConfusion,
          fun _ => h.typed Mode.noConfusion⟩
      · exact h
    · obtain ⟨d', hgood', -⟩ := hgood.step (hsafe s rfl) hres
      refine ⟨fun s' hs' => ?_, Mode.noConfusion, fun _ => h.typed Mode.noConfusion⟩
      cases hs'
      exact ⟨d', hgood'⟩
  | _ => exact h

theorem reads_toList (kb : Keyboard) (data : Option UInt8) :
    (kb.reads data.toList).2 = (checkKeyboard kb data).2 := by
  cases data <;> rfl

/-- One call of `check_keyboard`, by its decision. -/
theorem Session.poll_of_ne (hstuck : x.mode ≠ .stuck) (hoff : x.mode ≠ .off)
    (data : Option UInt8) (m : Mem) :
    x.poll L ramimages data m = match checkKeyboard x.keyboard data with
      | (.none, kb) => { x with keyboard := kb, typed := x.typed ++ data.toList }
      | (.reboot argument, _) => .boot (kernel L ramimages (some argument) (softReboot m))
      | (.poweroff, _) => { x with mode := .off } := by
  obtain ⟨mode, kb, typed⟩ := x
  cases mode with
  | stuck => exact absurd rfl hstuck
  | off => exact absurd rfl hoff
  | _ => rfl

theorem verdict_reboot {c : ℤ} {argument : String} (h : verdict c = .reboot argument) :
    argument ∈ ["allocators", "fork", "forkexit"] := by
  rw [verdict] at h
  split_ifs at h <;> cases h <;> decide

section
variable (hload : ∀ argument ∈ ["allocators", "fork", "forkexit"],
  Bootable L ramimages (some argument))
include hload

theorem Session.Sound.poll (h : x.Sound L) (data : Option UInt8) (m : Mem) :
    (x.poll L ramimages data m).Sound L := by
  by_cases hoff : x.mode = .off
  · rw [Session.poll, hoff]
    exact h
  rw [Session.poll_of_ne h.notStuck hoff]
  have hreads := reads_toList x.keyboard data
  obtain ⟨v, hv⟩ : ∃ v, (checkKeyboard x.keyboard data).1 = v := ⟨_, rfl⟩
  rw [← Prod.eta (checkKeyboard x.keyboard data), hv]
  cases v with
  | none =>
    refine ⟨h.good, h.notStuck, fun _ => ?_⟩
    rw [Keyboard.reads_append, ← h.typed hoff]
    exact hreads.symm
  | reboot argument =>
    obtain ⟨s, hkernel, hboot⟩ := (hload _ (verdict_reboot hv)).boot (softReboot_cleared m)
    simp only [hkernel]
    exact sound_boot hboot
  | poweroff =>
    exact ⟨fun _ hs => Mode.noConfusion hs, Mode.noConfusion, fun hne => absurd rfl hne⟩

/-- **Every session** has a sound kernel and the keyboard that its keys leave. -/
theorem Session.Sound.steps (h : x.Sound L)
    (hsteps : Relation.ReflTransGen (Session.Step L ramimages) x y) : y.Sound L := by
  induction hsteps with
  | refl => exact h
  | tail _ hstep ih =>
    cases hstep with
    | event ev hsafe => exact ih.event hsafe
    | poll data m => exact ih.poll hload data m

/-- **Soft reboots.**  In every session, the bytes of complete key events leave the keyboard in the
    state of these events, a kernel that is up is sound and one that is not is in `fail` or has been
    turned off, and the next key event is obeyed: the keys for a reboot bring up a freshly booted
    kernel, whether the old one was running, spinning or had panicked. -/
theorem session_reboots (hfirst : Bootable L ramimages command) (hcleared : Cleared s)
    (hsteps : Relation.ReflTransGen (Session.Step L ramimages)
      (.boot (kernel L ramimages command s)) x) :
    (∀ s', x.mode = .up s' → ∃ d, Good L d s') ∧ x.mode ≠ .stuck ∧
    ∀ (es : List KeyEvent) (e : KeyEvent) (m : Mem), x.mode ≠ .off →
      x.typed = es.flatMap KeyEvent.bytes ++ e.bytes.dropLast → ∀ data, e.bytes.getLast? = some data →
      match KeyEvent.command es e with
      | .none => (x.poll L ramimages data m).mode = x.mode
      | .reboot argument => ∃ s', kernel L ramimages (some argument) (softReboot m) = .ok s' ∧
          Boot L s' ∧ x.poll L ramimages data m = .boot (.ok s')
      | .poweroff => (x.poll L ramimages data m).mode = .off := by
  obtain ⟨s₀, hkernel, hboot⟩ := hfirst.boot hcleared
  rw [hkernel] at hsteps
  have h := (Session.sound_boot hboot).steps hload hsteps
  refine ⟨h.good, h.notStuck, fun es e m hoff htyped data hdata => ?_⟩
  have hshows := reads_shows start_shows es
  rw [List.nil_append] at hshows
  have hobeys : (checkKeyboard x.keyboard data).1 = KeyEvent.command es e := by
    rw [h.typed hoff, htyped, Keyboard.reads_append]
    exact hshows.obeys_last hdata
  rw [Session.poll_of_ne h.notStuck hoff, ← Prod.eta (checkKeyboard x.keyboard data), hobeys]
  cases hv : KeyEvent.command es e with
  | none => rfl
  | reboot argument =>
    rw [hv] at hobeys
    obtain ⟨s', hkernel', hboot'⟩ := (hload _ (verdict_reboot hobeys)).boot (softReboot_cleared m)
    exact ⟨s', hkernel', hboot', by simp only [hkernel']⟩
  | poweroff => rfl

end

/-! ## The small machine -/

/-- Its programs can be loaded whatever the memory holds. -/
theorem twoPageImages_bootable (name : String) : Bootable smallKernel twoPageImages (some name) := by
  refine ⟨[(1, twoPageImages name)], rfl, fun s s₁ hcleared hmem => ⟨?_, fun _ _ => trivial⟩⟩
  rw [kernelMemory_eq] at hmem
  cases hmem
  have hload := twoPageElf_loadable (Or.inl rfl)
  have hcontig : Contiguous smallKernel beforeSetup (twoPageElf 0x100000).segments := by
    decide +kernel
  have hpages : s.pages = beforeSetup.pages := funext hcleared.pages
  refine ⟨_, rfl, hload.magic, hload.placed, ?_, ?_⟩
  · have henough := hload.enough
    rw [← hpages] at henough
    exact henough
  · rw [Contiguous, placement, ← hpages] at hcontig
    exact hcontig

/-- The key F reboots into `fork`. -/
theorem session_reboots_fork : ∃ s', Boot smallKernel s' ∧
    (Session.boot (kernel smallKernel twoPageImages (some "allocators") resetState)).poll smallKernel
      twoPageImages (some 0x21) resetState.mem = .boot (.ok s') := by
  obtain ⟨s₀, hkernel, -⟩ := (twoPageImages_bootable "allocators").boot resetState_cleared
  have h := (session_reboots (fun argument _ => twoPageImages_bootable argument)
    (twoPageImages_bootable "allocators") resetState_cleared .refl).2.2 []
    ⟨false, 0x21, true, by decide, by decide⟩ resetState.mem
  rw [hkernel] at h ⊢
  obtain ⟨s', -, hboot, hpoll⟩ := h Mode.noConfusion rfl 0x21 rfl
  exact ⟨s', hboot, hpoll⟩

end CProj.WeensyOS
