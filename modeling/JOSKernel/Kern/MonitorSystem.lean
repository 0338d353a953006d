import JOSKernel.Kern.ConsoleAnswers
import JOSKernel.Kern.ConsoleLoss
import JOSKernel.Kern.MonitorLoop

/-!
# The monitor and its devices

The monitor reads its keys with `getchar`, which polls `cons_getc` until there
is a character.  Whatever the serial port and the keyboard do meanwhile, what
the monitor prints is the session of the characters that were delivered to it,
with the notice of a reboot for each Ctrl-Alt-Del.
-/

namespace JOSKernel.Kern.MonitorSystem

open JOSKernel.General.ByteMemory
open JOSKernel.General.CircularQueue
open JOSKernel.General.Interaction
open JOSKernel.General.LossyQueue
open JOSKernel.General.MachineInt
open JOSKernel.Kern.CommandLine
open JOSKernel.Kern.ConsoleAnswers
open JOSKernel.Kern.ConsoleInput
open JOSKernel.Kern.ConsoleLoss
open JOSKernel.Kern.ConsoleOutput
open JOSKernel.Kern.MonitorLoop
open JOSKernel.Kern.Printf
open JOSKernel.Lib
open JOSKernel.Lib.FormatText
open JOSKernel.Lib.LineErase
open JOSKernel.Lib.Printfmt
open JOSKernel.Lib.Readline
open JOSKernel.Lib.StringRoutines

/-! ## The loops -/

/-- The kernel after something has been printed. -/
def withConsole (k : Kernel) (st : Console) : Kernel :=
  { k with devices := { k.devices with console := st } }

/-- `getchar`, for at most `polls` calls of `cons_getc`.  It gives the character
and how many calls are left, or it is still polling. -/
def getchar (fuel : Nat) : Nat → Kernel → Option (Kernel × Option (Word × Nat))
  | 0, k => some (k, none)
  | polls + 1, k => do
      let (c, k) ← consGetc fuel k
      if c = 0 then getchar fuel polls k else some (k, some (ofUChar c, polls))

/-- Where a call of `readline` stands: it waits for a character, or it has
returned and left some polls. -/
structure LineRead where
  kernel : Kernel
  buf : Nat → Byte
  i : Nat
  result : Option (Return × Nat)

def readlineLoop (fuel : Nat) : Nat → Nat → Kernel → (Nat → Byte) → Nat → Option LineRead
  | 0, _, _, _, _ => none
  | rounds + 1, polls, k, buf, i => do
      let (k, key) ← getchar fuel polls k
      match key with
      | none => some ⟨k, buf, i, none⟩
      | some (c, polls) => do
          let (e, result) ← readKey c ⟨k.devices.console, buf, i⟩
          let k := withConsole k e.console
          match result with
          | none => readlineLoop fuel rounds polls k e.buf e.i
          | some returned => some ⟨k, e.buf, e.i, some (returned, polls)⟩

/-- Each round of the loop takes a poll at least. -/
def readline (fuel polls : Nat) (p : Word) (prompt : List Byte) (k : Kernel) (buf : Nat → Byte) :
    Option LineRead := do
  let st ← if p ≠ 0 then
      (cprintf (cstr (bytes "%s")) [.ptr p prompt] k.devices.console).map Prod.snd
    else some k.devices.console
  readlineLoop fuel (polls + 1) polls (withConsole k st) buf 0

/-- Where the monitor stands: in `getchar`, or it has returned. -/
inductive Outcome where
  | waiting (i : Nat) (k : Kernel) (mem : Memory)
  | returned (k : Kernel) (mem : Memory)

section Monitor

variable {τ : Type}

def monitorLoop (commands : List (Command τ)) (fuel buf : Nat) (tf : τ) (stack : Nat → Nat) :
    Nat → Nat → Kernel → Memory → Option Outcome
  | 0, _, _, _ => none
  | rounds + 1, polls, k, mem => do
      let r ← readline fuel polls literalAddr (cstr (bytes "K> ")) k fun i => mem (buf + i)
      let mem := overlay mem buf BUFLEN r.buf
      match r.result with
      | none => some (.waiting r.i r.kernel mem)
      | some (.null, polls) => monitorLoop commands fuel buf tf stack rounds polls r.kernel mem
      | some (.buf, polls) => do
          let (code, s) ← runcmdWith commands BUFLEN buf tf stack ⟨mem, r.kernel.devices.console⟩
          let k := withConsole r.kernel s.console
          if code < 0 then some (.returned k s.mem)
          else monitorLoop commands fuel buf tf stack rounds polls k s.mem

/-- The monitor for at most `polls` calls of `cons_getc`. -/
def monitor (commands : List (Command τ)) (fuel buf : Nat) (tf : τ) (stack : Nat → Nat)
    (polls : Nat) (k : Kernel) (mem : Memory) : Option Outcome := do
  let (_, st) ← cprintf (cstr welcome) [] k.devices.console
  let (_, st) ← cprintf (cstr hint) [] st
  monitorLoop commands fuel buf tf stack (polls + 1) polls (withConsole k st) mem

end Monitor

/-! ## What has been printed -/

/-- What is done to the console: a character of the session, or what `kbd_proc_data`
does for Ctrl-Alt-Del. -/
inductive Action where
  | char (c : Word)
  | reboot

def rebooting : List Word := (bytes "Rebooting!" ++ [0x0A]).map ofChar

def Action.perform : Action → Console → Console
  | .char c, st => cputchar c st
  | .reboot, st => outb 0x92 0x03 (feed cputchar rebooting st)

def performAll (actions : List Action) (st : Console) : Console :=
  actions.foldl (fun st action => action.perform st) st

/-- The characters of the session. -/
def chars : List Action → List Word
  | [] => []
  | .char c :: actions => c :: chars actions
  | .reboot :: actions => chars actions

def reboots : List Action → Nat
  | [] => 0
  | .char _ :: actions => reboots actions
  | .reboot :: actions => reboots actions + 1

/-- How often the reset line has been pulled. -/
def resets (st : Console) : Nat := st.outbs.count (0x92, 0x03)

/-- Exactly `out` has been printed between the two consoles, apart from the notices
of reboots, as far as the devices' answers do not matter. -/
def Printed (st : Console) (out : List Word) (st' : Console) : Prop :=
  ∃ actions, chars actions = out ∧ Alike (performAll actions st) st'

theorem performAll_append (actions more : List Action) (st : Console) :
    performAll (actions ++ more) st = performAll more (performAll actions st) :=
  List.foldl_append

theorem chars_append (actions more : List Action) :
    chars (actions ++ more) = chars actions ++ chars more := by
  induction actions with
  | nil => rfl
  | cons action actions ih =>
      cases action with
      | char c => exact congrArg (c :: ·) ih
      | reboot => exact ih

theorem performAll_alike {st st' : Console} (h : Alike st st') (actions : List Action) :
    Alike (performAll actions st) (performAll actions st') := by
  induction actions generalizing st st' with
  | nil => exact h
  | cons action actions ih =>
      cases action with
      | char c => exact ih (h.cputchar c)
      | reboot => exact ih ((h.feed rebooting).outb 0x92 0x03)

/-- Printing does not pull the reset line. -/
theorem resets_cputchar (c : Word) (st : Console) : resets (cputchar c st) = resets st := by
  obtain ⟨outbs, hsent, hports⟩ := (Extends.cputchar c st).sent
  have hnone : outbs.count (0x92, 0x03) = 0 := by
    refine List.count_eq_zero.mpr fun hmem => ?_
    have hport := hports _ hmem
    simp [OutputPort, COM1, ConsolePorts.LPT1] at hport
  rw [resets, hsent, List.count_append, hnone, resets, Nat.add_zero]

theorem resets_feed (out : List Word) (st : Console) :
    resets (feed cputchar out st) = resets st := by
  induction out generalizing st with
  | nil => rfl
  | cons c out ih => exact (ih (cputchar c st)).trans (resets_cputchar c st)

theorem resets_performAll (actions : List Action) (st : Console) :
    resets (performAll actions st) = resets st + reboots actions := by
  induction actions generalizing st with
  | nil => rfl
  | cons action actions ih =>
      cases action with
      | char c => exact (ih _).trans (congrArg (· + reboots actions) (resets_cputchar c st))
      | reboot =>
          have hone : resets (Action.perform .reboot st) = resets st + 1 := by
            rw [Action.perform, resets, outb, List.count_append]
            exact congrArg (· + 1) (resets_feed rebooting st)
          refine (ih _).trans ?_
          rw [hone, reboots, Nat.add_assoc, Nat.add_comm 1]

/-- Without a reboot the console prints the characters only. -/
theorem performAll_chars {actions : List Action} (h : reboots actions = 0) (st : Console) :
    performAll actions st = feed cputchar (chars actions) st := by
  induction actions generalizing st with
  | nil => rfl
  | cons action actions ih =>
      cases action with
      | char c => exact ih h _
      | reboot => exact absurd h (Nat.succ_ne_zero _)

theorem performAll_feed (out : List Word) (st : Console) :
    performAll (out.map .char) st = feed cputchar out st := by
  rw [performAll, List.foldl_map]
  rfl

theorem chars_feed (out : List Word) : chars (out.map .char) = out := by
  induction out with
  | nil => rfl
  | cons c out ih => exact congrArg (c :: ·) ih

namespace Printed

variable {st st' st'' : Console} {out out' : List Word}

theorem of_alike (h : Alike st st') : Printed st [] st' := ⟨[], rfl, h⟩

theorem refl (st : Console) : Printed st [] st := of_alike (Alike.refl st)

theorem trans (h : Printed st out st') (h' : Printed st' out' st'') :
    Printed st (out ++ out') st'' := by
  obtain ⟨actions, rfl, halike⟩ := h
  obtain ⟨more, rfl, halike'⟩ := h'
  refine ⟨actions ++ more, chars_append actions more, ?_⟩
  rw [performAll_append]
  exact (performAll_alike halike more).trans halike'

/-- Nothing is printed any more. -/
theorem quiet (h : Printed st out st') (hquiet : Printed st' [] st'') : Printed st out st'' := by
  have hboth := h.trans hquiet
  rwa [List.append_nil] at hboth

theorem feed (h : Printed st out st') (more : List Word) :
    Printed st (out ++ more) (Printfmt.feed cputchar more st') :=
  h.trans ⟨more.map .char, chars_feed more, by rw [performAll_feed]; exact Alike.refl _⟩

/-- When no reset has been asked for in between, that is all that has happened. -/
theorem alike (h : Printed st out st') (hresets : resets st' = resets st) :
    Alike (Printfmt.feed cputchar out st) st' := by
  obtain ⟨actions, rfl, halike⟩ := h
  have hcount : resets st' = resets st + reboots actions := by
    rw [← resets_performAll actions st, resets, halike.outbs_eq]
    rfl
  rw [← performAll_chars (by omega)]
  exact halike

end Printed

/-! ## Polling -/

/-- A relation between consoles that reading a port keeps. -/
structure Polled (R : Console → Console → Prop) : Prop where
  refl : ∀ st, R st st
  trans : ∀ {st st' st''}, R st st' → R st' st'' → R st st''
  inb : ∀ port st, R st (inb port st).2

/-- A device routine keeps the relation. -/
def Keeps (R : Console → Console → Prop) (proc : Devices → Option (Int × Devices)) : Prop :=
  ∀ d c d', proc d = some (c, d') → R d.console d'.console

namespace Polled

variable {R : Console → Console → Prop} {proc : Devices → Option (Int × Devices)}

theorem serialProcData (hR : Polled R) : Keeps R serialProcData := by
  intro d c d' h
  rw [ConsoleInput.serialProcData] at h
  dsimp only at h
  split at h
  · cases h
    exact hR.inb (COM1 + 5) d.console
  · cases h
    exact hR.trans (hR.inb (COM1 + 5) d.console) (hR.inb COM1 _)

theorem drain (hR : Polled R) (hproc : Keeps R proc) {fuel : Nat} {d d' : Devices}
    {cs : List Byte} (h : drain proc fuel d = some (cs, d')) : R d.console d'.console := by
  induction fuel generalizing d cs with
  | zero => cases h
  | succ fuel ih =>
      obtain ⟨⟨c, d₁⟩, hc, h⟩ := Option.bind_eq_some_iff.mp h
      have hfirst := hproc _ _ _ hc
      dsimp only at h
      split at h
      · cases h
        exact hfirst
      · obtain ⟨⟨rest, d₂⟩, hrest, h⟩ := Option.bind_eq_some_iff.mp h
        cases h
        exact hR.trans hfirst (ih hrest)

theorem consIntr (hR : Polled R) (hproc : Keeps R proc) {fuel : Nat} {k k' : Kernel}
    (h : consIntr proc fuel k = some k') : R k.devices.console k'.devices.console := by
  rw [consIntr_eq_drain] at h
  obtain ⟨⟨cs, d⟩, hdrain, rfl⟩ := Option.map_eq_some_iff.mp h
  exact hR.drain hproc hdrain

theorem serialIntr (hR : Polled R) {fuel : Nat} {k k' : Kernel} (h : serialIntr fuel k = some k') :
    R k.devices.console k'.devices.console := by
  rw [ConsoleInput.serialIntr] at h
  split at h
  · exact hR.consIntr hR.serialProcData h
  · cases h
    exact hR.refl _

theorem consGetc (hR : Polled R) (hkbd : Keeps R kbdProcData) {fuel : Nat} {k k' : Kernel}
    {c : Byte} (h : consGetc fuel k = some (c, k')) :
    R k.devices.console k'.devices.console := by
  obtain ⟨polled, hserial, h⟩ := Option.bind_eq_some_iff.mp h
  obtain ⟨full, hfull, h⟩ := Option.bind_eq_some_iff.mp h
  have hlast : k'.devices = full.devices := by
    split at h
    · cases h
      rfl
    · cases h
      rfl
  rw [hlast]
  exact hR.trans (hR.serialIntr hserial) (hR.consIntr hkbd hfull)

theorem step (hR : Polled R) (hkbd : Keeps R kbdProcData) {fuel : Nat} {h h' : History}
    {call : Call} (hstep : h.step fuel call = some h') :
    R h.kernel.devices.console h'.kernel.devices.console := by
  cases call with
  | serialIntr =>
      obtain ⟨k, hk, rfl⟩ := Option.map_eq_some_iff.mp hstep
      exact hR.serialIntr hk
  | kbdIntr =>
      obtain ⟨k, hk, rfl⟩ := Option.map_eq_some_iff.mp hstep
      exact hR.consIntr hkbd hk
  | consGetc =>
      obtain ⟨polled, _, hstep⟩ := Option.bind_eq_some_iff.mp hstep
      obtain ⟨⟨c, k⟩, hgetc, hstep⟩ := Option.bind_eq_some_iff.mp hstep
      cases hstep
      exact hR.consGetc hkbd hgetc

end Polled

/-! ## Polling is silent -/

theorem polled_printed : Polled fun st st' => Printed st [] st' where
  refl := .refl
  trans := .quiet
  inb port st := .of_alike (Alike.inb port st)

theorem reboot_eq (d : Devices) :
    reboot d = some { d with console := Action.perform .reboot d.console } := by
  have hnotice : stream (cstr (bytes "Rebooting!" ++ [0x0A])) [] = some ([], rebooting) :=
    (Prints.plain (by decide)).stream_eq
  rw [reboot, cprintf_eq hnotice]
  rfl

theorem keyPressed_silent {data : Byte} {d d' : Devices} {c : Int}
    (h : keyPressed data d = some (c, d')) : Printed d.console [] d'.console := by
  rw [keyPressed] at h
  generalize (d.shift ||| ofUChar (shiftcode data)) ^^^ ofUChar (togglecode data) = shift at h
  generalize (if shift &&& ofUChar CAPSLOCK ≠ 0 then
    swapCase (charcode (shift &&& ofUChar (CTL ||| SHIFT)) data).toNat
    else ((charcode (shift &&& ofUChar (CTL ||| SHIFT)) data).toNat : Int)) = ch at h
  split at h
  · rw [reboot_eq] at h
    cases h
    exact ⟨[.reboot], rfl, Alike.refl _⟩
  · cases h
    exact Printed.refl _

/-- The keyboard prints nothing but the notice of a reboot. -/
theorem kbdProcData_silent : Keeps (fun st st' => Printed st [] st') kbdProcData := by
  intro d c d' h
  have hread (port : Nat) (d : Devices) : Printed d.console [] (readPort port d).2.console :=
    polled_printed.inb port d.console
  rw [kbdProcData] at h
  dsimp only at h
  split at h
  · cases h
    exact hread _ _
  · refine ((hread 0x64 d).quiet (hread 0x60 _)).quiet ?_
    split at h
    · cases h
      exact Printed.refl _
    · split at h
      · cases h
        exact Printed.refl _
      · split at h
        · have hpressed := keyPressed_silent h
          exact hpressed
        · have hpressed := keyPressed_silent h
          exact hpressed

/-! ## A keyboard without keys -/

/-- The keyboard controller never has data. -/
def NoKeys (st : Console) : Prop := ∀ n, st.inbs n 0x64 &&& 0x01 = 0

theorem NoKeys.later {st st' : Console} (h : NoKeys st)
    (hlater : ∃ k, ∀ n, st'.inbs n = st.inbs (n + k)) : NoKeys st' := by
  obtain ⟨k, hk⟩ := hlater
  intro n
  rw [hk]
  exact h (n + k)

/-- Nothing is typed at the keyboard, and no reset is asked for. -/
def Undisturbed (st st' : Console) : Prop := NoKeys st → NoKeys st' ∧ resets st' = resets st

theorem polled_undisturbed : Polled Undisturbed where
  refl _ hno := ⟨hno, rfl⟩
  trans h h' hno :=
    have hfirst := h hno
    have hsecond := h' hfirst.1
    ⟨hsecond.1, hsecond.2.trans hfirst.2⟩
  inb _ _ hno := ⟨hno.later ⟨1, fun _ => rfl⟩, rfl⟩

theorem kbdProcData_undisturbed : Keeps Undisturbed kbdProcData := by
  intro d c d' h hno
  have hnone : (readPort 0x64 d).1 &&& 0x01 = 0 := hno 0
  rw [kbdProcData] at h
  dsimp only at h
  rw [if_pos hnone] at h
  cases h
  exact polled_undisturbed.inb 0x64 d.console hno

theorem feed_undisturbed (out : List Word) (st : Console) :
    Undisturbed st (feed cputchar out st) :=
  fun hno => ⟨hno.later (Extends.feed out st).answered, resets_feed out st⟩

/-! ## Histories with output -/

/-- What can have happened since `start`: calls of the input routines, and output. -/
inductive Evolves (fuel : Nat) (start : History) : History → Prop where
  | start : Evolves fuel start start
  | call {h h' : History} {c : Call} (before : Evolves fuel start h)
      (hstep : h.step fuel c = some h') : Evolves fuel start h'
  | prints {h : History} (before : Evolves fuel start h) (out : List Word) :
      Evolves fuel start
        { h with kernel := withConsole h.kernel (feed cputchar out h.kernel.devices.console) }

/-- Output does not touch the ring. -/
theorem Evolves.accounted {fuel : Nat} {start h : History} (hev : Evolves fuel start h)
    {q : List Byte} (hstart : Accounted start q) : ∃ q', Accounted h q' := by
  induction hev with
  | start => exact ⟨q, hstart⟩
  | call _ hstep ih =>
      obtain ⟨q', hq'⟩ := ih
      exact hq'.step hstep
  | prints _ out ih =>
      obtain ⟨q', hq'⟩ := ih
      exact ⟨q', hq'.accounts, hq'.nonzero⟩

theorem Evolves.undisturbed {fuel : Nat} {start h : History} (hev : Evolves fuel start h) :
    Undisturbed start.kernel.devices.console h.kernel.devices.console := by
  induction hev with
  | start => exact polled_undisturbed.refl _
  | call _ hstep ih =>
      exact polled_undisturbed.trans ih (polled_undisturbed.step kbdProcData_undisturbed hstep)
  | prints _ out ih => exact polled_undisturbed.trans ih (feed_undisturbed out _)

/-- A device kept a loop of `cons_getc` going beyond its bound. -/
def Stuck (fuel : Nat) (start : History) : Prop :=
  ∃ h, Evolves fuel start h ∧ consGetc fuel h.kernel = none

theorem step_getc {fuel : Nat} {h : History} {c : Byte} {k : Kernel}
    (hgetc : consGetc fuel h.kernel = some (c, k)) :
    ∃ h', h.step fuel .consGetc = some h' ∧ h'.kernel = k ∧
      h'.delivered = if c = 0 then h.delivered else h.delivered ++ [c] := by
  obtain ⟨polled, hserial, _⟩ := Option.bind_eq_some_iff.mp hgetc
  rw [History.step, hserial, hgetc]
  exact ⟨_, rfl, rfl, rfl⟩

/-- The keys that `getchar` has returned. -/
def History.keys (h : History) : List Word := h.delivered.map ofUChar

theorem getchar_spec {fuel : Nat} {start : History} (polls : Nat) {h : History}
    (hev : Evolves fuel start h) :
    Stuck fuel start ∧ getchar fuel polls h.kernel = none ∨
      ∃ k key h', getchar fuel polls h.kernel = some (k, key) ∧
      Evolves fuel start h' ∧ h'.kernel = k ∧
      Printed h.kernel.devices.console [] k.devices.console ∧
      (key = none ∧ History.keys h' = History.keys h ∨
        ∃ b left, key = some (ofUChar b, left) ∧ left < polls ∧
          History.keys h' = History.keys h ++ [ofUChar b]) := by
  induction polls generalizing h with
  | zero => exact .inr ⟨h.kernel, none, h, rfl, hev, rfl, Printed.refl _, .inl ⟨rfl, rfl⟩⟩
  | succ polls ih =>
      cases hgetc : consGetc fuel h.kernel with
      | none => exact .inl ⟨⟨h, hev, hgetc⟩, by rw [getchar, hgetc]; rfl⟩
      | some r =>
          obtain ⟨c, k⟩ := r
          obtain ⟨h₁, hstep, hkernel, hdelivered⟩ := step_getc hgetc
          have hev₁ := hev.call hstep
          have hquiet := polled_printed.consGetc kbdProcData_silent hgetc
          by_cases hc : c = 0
          · have hround : getchar fuel (polls + 1) h.kernel = getchar fuel polls h₁.kernel := by
              rw [getchar, hgetc, hkernel]
              exact if_pos hc
            rw [if_pos hc] at hdelivered
            rcases ih hev₁ with
              ⟨hstuck, hnone⟩ | ⟨k', key, h', hrun, hev', hkernel', hquiet', hkey⟩
            · exact .inl ⟨hstuck, hround.trans hnone⟩
            · rw [hkernel] at hquiet'
              refine .inr ⟨k', key, h', hround.trans hrun, hev', hkernel', hquiet.quiet hquiet', ?_⟩
              rw [History.keys, History.keys, hdelivered] at hkey
              rcases hkey with hnone | ⟨b, left, hkey, hleft, hkeys⟩
              · exact .inl hnone
              · exact .inr ⟨b, left, hkey, Nat.lt_succ_of_lt hleft, hkeys⟩
          · refine .inr ⟨k, some (ofUChar c, polls), h₁, ?_, hev₁, hkernel, hquiet,
              .inr ⟨c, polls, rfl, Nat.lt_succ_self _, ?_⟩⟩
            · rw [getchar, hgetc]
              exact if_neg hc
            · rw [if_neg hc] at hdelivered
              rw [History.keys, hdelivered, List.map_append]
              rfl

/-! ## Lines -/

section Session

variable {τ : Type} (table : List (Entry τ)) (fuel : Nat) (start : History) (st₀ : Console)

def History.print (h : History) (out : List Word) : History :=
  { h with kernel := withConsole h.kernel (feed cputchar out h.kernel.devices.console) }

/-- The monitor in the middle of a line: the keys delivered so far make the
session that has been printed. -/
structure Live (h : History) (line : List Byte) (out : List Word) : Prop where
  evolves : Evolves fuel start h
  session : run (respond table) [] (History.keys h) = (out, .waiting line)
  typable : Typable line
  printed : Printed st₀ (opening ++ out) h.kernel.devices.console

/-- A line has been ended by the key `c`, and its reply is still to come. -/
structure Entered (h : History) (line : List Byte) (out : List Word) (c : Word) (r : LineRead) :
    Prop where
  evolves : Evolves fuel start h
  kernel_eq : r.kernel = h.kernel
  session : ∃ before, History.keys h = before ++ [c] ∧
    run (respond table) [] before = (out, .waiting line)
  returns : IsReturn c
  typable : Typable line
  printed : Printed st₀ (opening ++ out ++ [0x0A]) h.kernel.devices.console
  buf_eq : ∃ e : Editor, e.line = line ∧ r.buf = Readline.store e.buf e.i 0

variable {table fuel start st₀}

/-- A key that does not end the line. -/
theorem Live.key {h h' : History} {line : List Byte} {out : List Word} {b : Byte}
    (hlive : Live table fuel start st₀ h line out) (hev : Evolves fuel start h')
    (hkeys : History.keys h' = History.keys h ++ [ofUChar b])
    (hquiet : Printed h.kernel.devices.console [] h'.kernel.devices.console)
    (hb : ¬ IsReturn (ofUChar b)) (hle : (ofUChar b).toNat ≤ 255) :
    Live table fuel start st₀ (History.print h' (typed line (ofUChar b)).2)
      (typed line (ofUChar b)).1 (out ++ (typed line (ofUChar b)).2) where
  evolves := hev.prints _
  session := by
    have hstep : respond table line (ofUChar b) =
        ((typed line (ofUChar b)).2, some (typed line (ofUChar b)).1) := if_neg hb
    have hrun := run_append hlive.session [ofUChar b]
    rw [run_next hstep, run_nil, List.append_nil, ← hkeys] at hrun
    exact hrun
  typable := typed_typable hlive.typable hle
  printed := by
    rw [← List.append_assoc]
    exact (hlive.printed.quiet hquiet).feed _

theorem ofUChar_toNat_le (b : Byte) : (ofUChar b).toNat ≤ 255 := by
  rw [ofUChar, BitVec.toNat_setWidth_of_le (by decide)]
  exact Nat.le_of_lt_succ b.isLt

/-- Whatever is delivered, `readline` is in the line that the keys make, or
returns at the key that ends it. -/
theorem readlineLoop_spec (rounds : Nat) {polls : Nat} (hrounds : polls < rounds) {h : History}
    {buf : Nat → Byte} {i : Nat} {line : List Byte} {out : List Word}
    (hlive : Live table fuel start st₀ h line out) (hline : (List.range i).map buf = line) :
    Stuck fuel start ∧ readlineLoop fuel rounds polls h.kernel buf i = none ∨
      ∃ r, readlineLoop fuel rounds polls h.kernel buf i = some r ∧
      (r.result = none ∧ (∃ h' out', Live table fuel start st₀ h' ((List.range r.i).map r.buf) out' ∧
          h'.kernel = r.kernel) ∨
        ∃ left h' line' out' c, r.result = some (.buf, left) ∧ left < polls ∧
          Entered table fuel start st₀ h' line' out' c r) := by
  induction rounds generalizing polls h buf i line out with
  | zero => exact absurd hrounds (Nat.not_lt_zero polls)
  | succ rounds ih =>
      rcases getchar_spec polls hlive.evolves with
        ⟨hstuck, hnone⟩ | ⟨k, key, h', hgetchar, hev, rfl, hquiet, hkey⟩
      · exact .inl ⟨hstuck, by rw [readlineLoop, hnone]; rfl⟩
      rcases hkey with ⟨rfl, hkeys⟩ | ⟨b, left, rfl, hleft, hkeys⟩
      · refine .inr ⟨⟨h'.kernel, buf, i, none⟩, ?_, .inl ⟨rfl, h', out, ?_, rfl⟩⟩
        · rw [readlineLoop, hgetchar]
          rfl
        · refine ⟨hev, ?_, ?_, hlive.printed.quiet hquiet⟩
          · rw [hkeys, hline]
            exact hlive.session
          · rw [hline]
            exact hlive.typable
      · have hle := ofUChar_toNat_le b
        by_cases hb : IsReturn (ofUChar b)
        · refine .inr ⟨⟨withConsole h'.kernel (cputchar 0x0A h'.kernel.devices.console),
            Readline.store buf i 0, i, some (.buf, left)⟩, ?_, .inr ?_⟩
          · rw [readlineLoop, hgetchar]
            simp only [Option.bind_eq_bind, Option.bind_some, readKey_returned hb]
          · refine ⟨left, History.print h' [0x0A], line, out, ofUChar b, rfl, hleft,
              hev.prints _, rfl, ⟨_, hkeys, hlive.session⟩, hb, hlive.typable,
              (hlive.printed.quiet hquiet).feed [0x0A], ⟨h'.kernel.devices.console, buf, i⟩, hline,
              rfl⟩
        · obtain ⟨e, hkey, heline, hconsole⟩ :=
            readKey_typed hle hb ⟨h'.kernel.devices.console, buf, i⟩
          have hthis : Editor.line ⟨h'.kernel.devices.console, buf, i⟩ = line := hline
          rw [hthis] at heline hconsole
          have hround : readlineLoop fuel (rounds + 1) polls h.kernel buf i =
              readlineLoop fuel rounds left
                (History.print h' (typed line (ofUChar b)).2).kernel e.buf e.i := by
            rw [readlineLoop, hgetchar]
            simp only [Option.bind_eq_bind, Option.bind_some, hkey, hconsole]
            rfl
          rcases ih (show left < rounds by omega) (hlive.key hev hkeys hquiet hb hle) heline with
            ⟨hstuck, hnone⟩ | ⟨r, hrun, hreads⟩
          · exact .inl ⟨hstuck, hround.trans hnone⟩
          · refine .inr ⟨r, hround.trans hrun, ?_⟩
            rcases hreads with hwaits | ⟨left', h'', line', out', c, hresult, hleft', hentered⟩
            · exact .inl hwaits
            · exact .inr ⟨left', h'', line', out', c, hresult, Nat.lt_trans hleft' hleft, hentered⟩

/-! ## Sessions -/

/-- The monitor in front of its prompt. -/
structure Ready (table : List (Entry τ)) (fuel : Nat) (start : History) (st₀ : Console) (buf : Nat)
    (mem₀ : Memory) (h : History) (mem : Memory) (out : List Word) : Prop where
  evolves : Evolves fuel start h
  session : run (respond table) [] (History.keys h) = (out, .waiting [])
  printed : ∃ before, before ++ promptText.map ofChar = opening ++ out ∧
    Printed st₀ before h.kernel.devices.console
  untouched : Untouched buf mem₀ mem

/-- How the monitor stands shows how the session of the delivered keys does. -/
inductive Watches (st₀ : Console) (buf : Nat) (mem₀ : Memory) (h : History) (out : List Word) :
    Status (List Byte) Word → Outcome → Prop where
  | waiting {line : List Byte} {mem : Memory}
      (hline : ∀ j (h : j < line.length), mem (buf + j) = (line)[j])
      (hprinted : Printed st₀ out h.kernel.devices.console) (huntouched : Untouched buf mem₀ mem) :
      Watches st₀ buf mem₀ h out (.waiting line) (.waiting line.length h.kernel mem)
  | returned {mem : Memory} (hprinted : Printed st₀ out h.kernel.devices.console)
      (huntouched : Untouched buf mem₀ mem) :
      Watches st₀ buf mem₀ h out (.ended []) (.returned h.kernel mem)

theorem Watches.printed {buf : Nat} {mem₀ : Memory} {h : History} {out : List Word}
    {status : Status (List Byte) Word} {outcome : Outcome}
    (hwatches : Watches st₀ buf mem₀ h out status outcome) :
    Printed st₀ out h.kernel.devices.console := by
  cases hwatches with
  | waiting _ hprinted _ => exact hprinted
  | returned hprinted _ => exact hprinted

/-- The prompt is printed and `readline` starts on an empty line. -/
theorem readline_prompt (fuel polls : Nat) (h : History) (buf : Nat → Byte) :
    readline fuel polls literalAddr (cstr (bytes "K> ")) h.kernel buf =
      readlineLoop fuel (polls + 1) polls (History.print h (promptText.map ofChar)).kernel buf 0 := by
  have hprompt : stream (cstr (bytes "%s")) [.ptr literalAddr (cstr (bytes "K> "))] =
      some ([], promptText.map ofChar) :=
    (Prints.string (by decide) (by decide) (by decide) []).stream_eq
  rw [readline, if_pos (by decide), cprintf_eq hprompt]
  rfl

theorem Ready.live {buf : Nat} {mem₀ mem : Memory} {h : History} {out : List Word}
    (hready : Ready table fuel start st₀ buf mem₀ h mem out) :
    Live table fuel start st₀ (History.print h (promptText.map ofChar)) [] out where
  evolves := hready.evolves.prints _
  session := hready.session
  typable := ⟨List.not_mem_nil, Nat.zero_le _⟩
  printed := by
    obtain ⟨before, hbefore, hprinted⟩ := hready.printed
    rw [← hbefore]
    exact hprinted.feed _

theorem monitorLoop_spec (tf : τ) (stack : Nat → Nat) {buf : Nat} (hbuf : 0 < buf)
    (hend : buf + BUFLEN ≤ 4294967296) {mem₀ : Memory} (rounds : Nat) {polls : Nat}
    (hrounds : polls < rounds) {h : History} {mem : Memory} {out : List Word}
    (hready : Ready table fuel start st₀ buf mem₀ h mem out) :
    Stuck fuel start ∧
        monitorLoop (table.map Entry.command) fuel buf tf stack rounds polls h.kernel mem = none ∨
      ∃ outcome h',
      monitorLoop (table.map Entry.command) fuel buf tf stack rounds polls h.kernel mem =
        some outcome ∧ Evolves fuel start h' ∧
      Watches st₀ buf mem₀ h' (opening ++ (run (respond table) [] (History.keys h')).1)
        (run (respond table) [] (History.keys h')).2 outcome := by
  have hbuflen : BUFLEN = 1024 := rfl
  induction rounds generalizing polls h mem out with
  | zero => exact absurd hrounds (Nat.not_lt_zero polls)
  | succ rounds ih =>
      rcases readlineLoop_spec (polls + 1) (Nat.lt_succ_self polls) hready.live
          (show (List.range 0).map (fun i => mem (buf + i)) = [] from rfl) with
        ⟨hstuck, hnone⟩ | ⟨r, hread, hreads⟩
      · rw [← readline_prompt] at hnone
        exact .inl ⟨hstuck, by rw [monitorLoop, hnone]; rfl⟩
      rw [← readline_prompt] at hread
      rcases hreads with
        ⟨hwaits, h', out', hlive, hkernel⟩ | ⟨left, h', line, out', c, hresult, hleft, hentered⟩
      · refine .inr ⟨.waiting r.i r.kernel (overlay mem buf BUFLEN r.buf), h', ?_, hlive.evolves, ?_⟩
        · rw [monitorLoop, hread]
          simp only [Option.bind_eq_bind, Option.bind_some, hwaits]
        · have hlength : ((List.range r.i).map r.buf).length = r.i := by
            rw [List.length_map, List.length_range]
          have hfits := hlive.typable.fits
          rw [hlive.session, ← hkernel]
          have hcells : ∀ j (hj : j < ((List.range r.i).map r.buf).length),
              overlay mem buf BUFLEN r.buf (buf + j) = ((List.range r.i).map r.buf)[j] := by
            intro j hj
            rw [overlay_apply _ _ _ (by omega), List.getElem_map, List.getElem_range]
          have hkept : Untouched buf mem₀ (overlay mem buf BUFLEN r.buf) := by
            intro a ha
            exact (overlay_outside _ _ ha).trans (hready.untouched a ha)
          have hwatches := Watches.waiting hcells hlive.printed hkept
          rw [hlength] at hwatches
          exact hwatches
      · obtain ⟨e, rfl, hbytes⟩ := hentered.buf_eq
        have hfits := hentered.typable.fits
        have htext := entered_holds mem buf hentered.typable
        rw [← hbytes] at htext
        obtain ⟨mem', hrun, hover⟩ := runcmdWith_reply table
          (s := ⟨overlay mem buf BUFLEN r.buf, r.kernel.devices.console⟩) hbuf (by omega) (by omega)
          htext (show e.line.length < BUFLEN by omega) tf stack
        have huntouched : Untouched buf mem₀ mem' := by
          intro a ha
          rw [← hready.untouched a ha]
          exact untouched_of_overwrites hover (by omega) a ha
        obtain ⟨before, hkeys, hsession⟩ := hentered.session
        have hprinted := hentered.printed.feed ((reply table e.line).1.map ofChar)
        have hkernel : withConsole r.kernel (feed cputchar ((reply table e.line).1.map ofChar)
            r.kernel.devices.console) =
              (History.print h' ((reply table e.line).1.map ofChar)).kernel := by
          rw [hentered.kernel_eq]
          rfl
        have hsame : History.keys (History.print h' ((reply table e.line).1.map ofChar)) =
            before ++ [c] := hkeys
        have hround : monitorLoop (table.map Entry.command) fuel buf tf stack (rounds + 1) polls
            h.kernel mem =
              if (reply table e.line).2 < 0 then
                some (.returned (History.print h' ((reply table e.line).1.map ofChar)).kernel mem')
              else monitorLoop (table.map Entry.command) fuel buf tf stack rounds left
                (History.print h' ((reply table e.line).1.map ofChar)).kernel mem' := by
          rw [monitorLoop, hread]
          simp only [Option.bind_eq_bind, Option.bind_some, hresult, hrun, hkernel]
        by_cases hcode : (reply table e.line).2 < 0
        · have hstep : respond table e.line c =
              (0x0A :: (reply table e.line).1.map ofChar, none) := by
            rw [respond, if_pos hentered.returns, if_pos hcode]
          have hends := run_append hsession [c]
          rw [run_ends hstep] at hends
          refine .inr ⟨_, History.print h' ((reply table e.line).1.map ofChar),
            hround.trans (if_pos hcode), hentered.evolves.prints _, ?_⟩
          rw [hsame, hends]
          refine .returned ?_ huntouched
          rw [List.append_assoc, List.append_assoc] at hprinted
          exact hprinted
        · have hstep : respond table e.line c =
              (0x0A :: ((reply table e.line).1 ++ promptText).map ofChar, some []) := by
            rw [respond, if_pos hentered.returns, if_neg hcode]
          have hgoes := run_append hsession [c]
          rw [run_next hstep, run_nil, List.append_nil, ← hsame] at hgoes
          rw [if_neg hcode] at hround
          rw [hround]
          refine ih (by omega) ⟨hentered.evolves.prints _, hgoes, ⟨_, ?_, hprinted⟩, huntouched⟩
          simp only [List.append_assoc, List.map_append, List.cons_append, List.nil_append]

/-- The monitor on its devices, from boot on: it has no result only where a
device keeps a loop going beyond its bound.  Otherwise the characters that come
out of the input buffer are the keys of a session, and that session is what has
been printed, with nothing in between but the notices of the reboots that the
keyboard asked for.  There are none when it sends no keys, or no reset has been
asked for since boot.  What is missing of the characters received is missing in
whole buffers. -/
theorem monitor_devices (table : List (Entry τ)) {buf : Nat} (hbuf : 0 < buf)
    (hend : buf + BUFLEN ≤ 4294967296) (fuel : Nat) (tf : τ) (stack : Nat → Nat) (polls : Nat)
    (console : Console) (serialExists : Bool) (mem : Memory) :
    monitor (table.map Entry.command) fuel buf tf stack polls (boot console serialExists) mem =
        none ∧ Stuck fuel (History.start (boot console serialExists)) ∨
      ∃ outcome h gone,
      monitor (table.map Entry.command) fuel buf tf stack polls (boot console serialExists) mem =
        some outcome ∧
      Evolves fuel (History.start (boot console serialExists)) h ∧
      h.received = gone ++ pending CONSBUFSIZE h.kernel.cons ∧
      Loses CONSBUFSIZE gone h.delivered ∧
      Watches console buf mem h (opening ++ (run (respond table) [] (History.keys h)).1)
        (run (respond table) [] (History.keys h)).2 outcome ∧
      (NoKeys console ∨ resets h.kernel.devices.console = resets console →
        Alike (feed cputchar (opening ++ (run (respond table) [] (History.keys h)).1) console)
          h.kernel.devices.console) := by
  have hwelcome : stream (cstr welcome) [] = some ([], welcome.map ofChar) :=
    (Prints.plain (by decide)).stream_eq
  have hhint : stream (cstr hint) [] = some ([], hint.map ofChar) :=
    (Prints.plain (by decide)).stream_eq
  have hfirst : feed cputchar (hint.map ofChar)
        (feed cputchar (welcome.map ofChar) (boot console serialExists).devices.console) =
      feed cputchar ((welcome ++ hint).map ofChar) (boot console serialExists).devices.console := by
    rw [List.map_append, feed_append]
  have hstart : monitor (table.map Entry.command) fuel buf tf stack polls
      (boot console serialExists) mem =
        monitorLoop (table.map Entry.command) fuel buf tf stack (polls + 1) polls
          (History.print (History.start (boot console serialExists))
            ((welcome ++ hint).map ofChar)).kernel mem := by
    rw [monitor, cprintf_eq hwelcome]
    simp only [Option.bind_eq_bind, Option.bind_some, cprintf_eq hhint]
    rw [hfirst]
    rfl
  have hready : Ready table fuel (History.start (boot console serialExists)) console buf mem
      (History.print (History.start (boot console serialExists)) ((welcome ++ hint).map ofChar))
      mem [] := by
    refine ⟨Evolves.start.prints _, rfl, ⟨(welcome ++ hint).map ofChar, ?_,
      (Printed.refl console).feed _⟩, fun _ _ => rfl⟩
    rw [opening, List.append_nil, ← List.map_append]
  rcases monitorLoop_spec tf stack hbuf hend (polls + 1) (Nat.lt_succ_self polls) hready with
    ⟨hstuck, hnone⟩ | ⟨outcome, h, hrun, hev, hwatches⟩
  · exact .inl ⟨hstart.trans hnone, hstuck⟩
  · obtain ⟨q, hq⟩ := hev.accounted (accounted_start console serialExists)
    obtain ⟨gone, hreceived, hloses⟩ := hq.accounts.gone
    rw [← hq.accounts.ring.pending_eq hq.accounts.room] at hreceived
    refine .inr ⟨outcome, h, gone, hstart.trans hrun, hev, hreceived, hloses, hwatches, ?_⟩
    rintro (hno | hresets)
    · exact hwatches.printed.alike (hev.undisturbed hno).2
    · exact hwatches.printed.alike hresets

/-! ## A command is typed -/

/-- A port that is ready to send, and has `text` to deliver once the monitor waits,
beside a keyboard that sends nothing. -/
def typing (text : List Byte) : Console where
  mem := fun _ => 0
  inbs := fun n port =>
    if port = 0x64 then 0
    else if n < 2 * opening.length then 0xA0
    else ((text.flatMap fun c => [0x01, c]) ++ [0x00, 0x00]).getD (n - 2 * opening.length) 0xA0
  outbs := []
  adapter := .cga
  crtPos := 0

theorem typing_noKeys (text : List Byte) : NoKeys (typing text) := by
  intro n
  simp [typing]

def Outcome.hasReturned : Outcome → Bool
  | .waiting _ _ _ => false
  | .returned _ _ => true

/-- `exit` is typed at the serial port, and the monitor returns. -/
theorem monitor_devices_typed :
    ∃ outcome h gone,
      monitor ([leaving].map Entry.command) 7 80 () (fun _ => 0) 6
        (boot (typing (bytes "exit\r")) true) (fun _ => 0) = some outcome ∧
      Evolves 7 (History.start (boot (typing (bytes "exit\r")) true)) h ∧
      h.received = gone ++ pending CONSBUFSIZE h.kernel.cons ∧
      Loses CONSBUFSIZE gone h.delivered ∧
      Watches (typing (bytes "exit\r")) 80 (fun _ => 0) h
        (opening ++ (run (respond [leaving]) [] (History.keys h)).1)
        (run (respond [leaving]) [] (History.keys h)).2 outcome ∧
      (run (respond [leaving]) [] (History.keys h)).2 = .ended [] ∧
      Alike (feed cputchar (opening ++ (run (respond [leaving]) [] (History.keys h)).1)
        (typing (bytes "exit\r"))) h.kernel.devices.console := by
  have hreturns : (monitor ([leaving].map Entry.command) 7 80 () (fun _ => 0) 6
      (boot (typing (bytes "exit\r")) true) (fun _ => 0)).map Outcome.hasReturned = some true := by
    decide +kernel
  rcases monitor_devices [leaving] (show 0 < 80 by decide)
      (show 80 + 1024 ≤ 4294967296 by decide) 7 () (fun _ => 0) 6 (typing (bytes "exit\r")) true
      fun _ => 0 with
    ⟨hnone, _⟩ | ⟨outcome, h, gone, hrun, hev, hreceived, hloses, hwatches, halike⟩
  · rw [hnone] at hreturns
    exact nomatch hreturns
  · rw [hrun] at hreturns
    have hended : (run (respond [leaving]) [] (History.keys h)).2 = .ended [] := by
      generalize (run (respond [leaving]) [] (History.keys h)).2 = status at hwatches
      cases hwatches with
      | waiting => exact absurd hreturns (by simp [Outcome.hasReturned])
      | returned => rfl
    exact ⟨outcome, h, gone, hrun, hev, hreceived, hloses, hwatches, hended,
      halike (.inl (typing_noKeys (bytes "exit\r")))⟩

end Session

end JOSKernel.Kern.MonitorSystem
