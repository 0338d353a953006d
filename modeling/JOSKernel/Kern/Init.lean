import JOSKernel.Kern.MonitorCommands
import JOSKernel.Kern.SerialLine
import JOSKernel.Kern.TestBacktrace
import JOSKernel.Lib.StringMemory

/-!
# The kernel's C code from its start on (`kern/init.c`)

`i386_init` clears the uninitialized data, initializes the console, runs the
backtrace test and stays in the monitor.  So does `_panic`, behind a message
that is printed for the first panic only.
-/

namespace JOSKernel.Kern.Init

open JOSKernel.General.ByteMemory
open JOSKernel.General.CallStack
open JOSKernel.General.Interaction
open JOSKernel.General.MachineInt
open JOSKernel.Kern.CommandLine
open JOSKernel.Kern.ConsoleOutput
open JOSKernel.Kern.ConsolePorts
open JOSKernel.Kern.Kdebug
open JOSKernel.Kern.Monitor
open JOSKernel.Kern.MonitorLoop
open JOSKernel.Kern.Printf
open JOSKernel.Kern.SerialLine
open JOSKernel.Kern.TestBacktrace
open JOSKernel.Lib.FormatText
open JOSKernel.Lib.NumberText
open JOSKernel.Lib.Printfmt
open JOSKernel.Lib.Readline
open JOSKernel.Lib.StringMemory
open JOSKernel.Lib.StringRoutines

section Kernel

variable {τ : Type}

/-- `while (1) monitor(NULL);` -/
def monitorForever (sym : CommandLine.Symbols) (buf : Nat) (tf : τ) (stack : Nat → Nat) :
    Nat → List Word → Machine → Option Session
  | 0, _, _ => none
  | rounds + 1, keys, s => do
      match ← monitor sym buf tf stack keys s with
      | .waiting i s => some (.waiting i s)
      | .returned s keys => monitorForever sym buf tf stack rounds keys s

/-- What the compiler and the linker decide about the kernel. -/
structure Build where
  edata : Nat
  bssEnd : Nat
  buf : Nat
  sym : CommandLine.Symbols
  image : DebugImage
  sites : CallSites
  /-- Behind the call of `test_backtrace` in `i386_init`. -/
  first : Word

/-- The stack behind the `memset` of `i386_init`. -/
def cleared (build : Build) (s : Stack) : Stack :=
  { s with mem := memset s.mem build.edata 0 (build.bssEnd - build.edata) }

/-- `i386_init`, in the frame that its call has left. -/
def i386Init (build : Build) (tf : τ) (stack : Nat → Nat) (eipinfo : Eipdebuginfo) (depth : Nat)
    (seen : BitVec 16) (keys : List Word) (s : Stack) (st : Console) : Option Session := do
  -- Clear the uninitialized global data (BSS) section of our program.
  let s := cleared build s
  -- Initialize the console.
  let (_, st) ← consInit seen st
  let (_, st) ← cprintf (cstr (bytes "6828 decimal is %o octal!" ++ [10])) [.int 6828] st
  -- Test the stack backtrace function (lab 1 only)
  let (mem, st) ← testBacktrace build.image build.sites eipinfo depth 6 5
    (s.call [5] build.first build.sites.room) st
  -- Drop into the kernel monitor.
  monitorForever build.sym build.buf tf stack (keys.length + 1) keys ⟨mem, st⟩

/-- `_panic`, with the value of `panicstr` before and after; `fmt` is at the
address `addr`. -/
def panic (build : Build) (tf : τ) (stack : Nat → Nat) (file : Arg) (line : Word) (addr : Word)
    (fmt : List Byte) (ap : List Arg) (keys : List Word) (panicstr : Word) (s : Machine) :
    Option (Word × Session) := do
  if panicstr ≠ 0 then
    let session ← monitorForever build.sym build.buf tf stack (keys.length + 1) keys s
    some (panicstr, session)
  else
    let (_, st) ← cprintf (cstr (bytes "kernel panic at %s:%d: ")) [file, .int line] s.console
    let (_, st) ← vcprintf fmt ap st
    let (_, st) ← cprintf (cstr [10]) [] st
    let session ← monitorForever build.sym build.buf tf stack (keys.length + 1) keys ⟨s.mem, st⟩
    some (addr, session)

/-- `_warn` -/
def warn (file : Arg) (line : Word) (fmt : List Byte) (ap : List Arg) (st : Console) :
    Option Console := do
  let (_, st) ← cprintf (cstr (bytes "kernel warning at %s:%d: ")) [file, .int line] st
  let (_, st) ← vcprintf fmt ap st
  let (_, st) ← cprintf (cstr [10]) [] st
  some st

/-! ## The monitor for ever -/

/-- The first call does not return. -/
theorem monitorForever_waits (sym : CommandLine.Symbols) {buf : Nat} (hbuf : 0 < buf)
    (hend : buf + BUFLEN ≤ 4294967296) (tf : τ) (stack : Nat → Nat) {keys : List Word}
    (hkeys : ∀ c ∈ keys, c.toNat ≤ 255) (s : Machine) (rounds : Nat) :
    ∃ line s', monitorForever sym buf tf stack (rounds + 1) keys s =
        some (.waiting line.length s') ∧
      (run (respond (MonitorCommands.entries τ sym)) [] keys).2 = .waiting line ∧
      s'.console = feed cputchar
        (opening ++ (run (respond (MonitorCommands.entries τ sym)) [] keys).1) s.console := by
  obtain ⟨line, s', hrun, hline, _, _, hconsole⟩ :=
    MonitorCommands.monitor_waits sym hbuf hend tf stack hkeys s
  refine ⟨line, s', ?_, hline, hconsole⟩
  rw [monitorForever, hrun]
  rfl

/-! ## The messages -/

def octalText : List Byte := bytes "6828 decimal is 15254 octal!" ++ [10]

theorem octal_digits : numeralText octal 6828 = bytes "15254" := by
  rw [numeralText_of_ge (by decide), numeralText_of_ge (by decide), numeralText_of_ge (by decide),
    numeralText_of_ge (by decide), numeralText_of_lt (by decide)]
  rfl

theorem octal_prints :
    Prints (bytes "6828 decimal is %o octal!" ++ [10]) [.int 6828] octalText := by
  have hnumber : Prints (bytes "%o") [.int 6828] (bytes "15254") := by
    refine Prints.directive (by decide) (by decide)
      (show parse _ = [.directive [] (ascii 'o')] from rfl) rfl ?_
    have hmember : (ascii 'o', octal) ∈
        [(ascii 'u', decimal), (ascii 'o', octal), (ascii 'x', hexadecimal)] := by simp
    rw [convert_unsigned 6828 Locals.reset rfl (by decide) hmember,
      show (6828 : Word).toNat = 6828 from rfl, octal_digits]
  have hfront : Prints (bytes "6828 decimal is ") [] (bytes "6828 decimal is ") :=
    Prints.plain (by decide)
  have hback : Prints (bytes " octal!" ++ [10]) [] (bytes " octal!" ++ [10]) :=
    Prints.plain (by decide)
  have hformat : bytes "6828 decimal is %o octal!" ++ [10] =
      bytes "6828 decimal is " ++ (bytes "%o" ++ (bytes " octal!" ++ [10])) := by decide
  have htext : octalText =
      bytes "6828 decimal is " ++ (bytes "15254" ++ (bytes " octal!" ++ [10])) := by decide
  rw [hformat, htext]
  exact hfront.append (hnumber.append hback)

/-! ## The start -/

/-- What `i386_init` prints before it calls the monitor. -/
def initText (build : Build) (serialExists : Bool) (frames : List Frame)
    (infos : List Eipdebuginfo) : List Byte :=
  noticeText serialExists ++
    (octalText ++ testText (headingText ++ entries build.image frames infos) 5)

/-- What `i386_init` relies on: debug information about the addresses on the
stack, and room for the stack and for the line buffer. -/
structure Runnable (build : Build) (frames : List Frame) (depth : Nat) (s : Stack) : Prop where
  framed : Framed (cleared build s) frames
  known : ∀ frame ∈ frames, Knows build.image frame.eip
  mon : Knows build.image build.sites.mon
  again : Knows build.image build.sites.again
  first : Knows build.image build.first
  depth : frames.length + 7 < depth
  room : 6 * (12 + build.sites.room) + (20 + build.sites.monRoom) < s.esp.toNat
  inside : s.esp.toNat + 16 ≤ 4294967296
  buf_pos : 0 < build.buf
  buf_end : build.buf + BUFLEN ≤ 4294967296

/-- From `i386_init` on the serial line transmits the greeting, the backtrace
test with one entry for each of its calls and for the frames it was started in,
and then the session of a monitor that never returns. -/
theorem i386Init_transmits (build : Build) (tf : τ) (stack : Nat → Nat) (eipinfo : Eipdebuginfo)
    {depth : Nat} (seen : BitVec 16) {keys : List Word} (hkeys : ∀ c ∈ keys, c.toNat ≤ 255)
    {s : Stack} {frames : List Frame} (hrunnable : Runnable build frames depth s) (st : Console)
    (u : Uart) :
    ∃ called infos line s' outbs,
      i386Init build tf stack eipinfo depth seen keys s st = some (.waiting line.length s') ∧
      called.map Frame.site = innerCalls build.sites 5 ++ [(build.first, 5)] ∧
      List.Forall₂ (Describes build.image) (called ++ frames) infos ∧
      (run (respond (MonitorCommands.entries τ build.sym)) [] keys).2 = .waiting line ∧
      s'.console.outbs = st.outbs ++ outbs ∧
      u.after outbs = Uart.configured (u.sent ++
        ((initText build (initialized seen st).1 (called ++ frames) infos).map ofChar ++
          (opening ++ (run (respond (MonitorCommands.entries τ build.sym)) [] keys).1)).flatMap
            portBytes) := by
  have htests := @tests_called build.image build.sites eipinfo depth hrunnable.mon hrunnable.again
    5 6 build.first hrunnable.first (cleared build s) frames hrunnable.framed hrunnable.known
    (by decide) (by decide) hrunnable.depth hrunnable.room hrunnable.inside
  obtain ⟨called, infos, mem, hsites, hinfos, _, htest⟩ := htests
    (feed cputchar (octalText.map ofChar)
      (feed cputchar ((noticeText (initialized seen st).1).map ofChar) (initialized seen st).2))
  obtain ⟨line, s', hmonitor, hline, hconsole⟩ := monitorForever_waits build.sym hrunnable.buf_pos
    hrunnable.buf_end tf stack hkeys ⟨mem, feed cputchar
      ((testText (headingText ++ entries build.image (called ++ frames) infos) 5).map ofChar)
      (feed cputchar (octalText.map ofChar)
        (feed cputchar ((noticeText (initialized seen st).1).map ofChar) (initialized seen st).2))⟩
    keys.length
  obtain ⟨outbs, houtbs, htransmits⟩ := initialized_transmits seen st u
    ((initText build (initialized seen st).1 (called ++ frames) infos).map ofChar ++
      (opening ++ (run (respond (MonitorCommands.entries τ build.sym)) [] keys).1))
  refine ⟨called, infos, line, s', outbs, ?_, hsites, hinfos, hline, ?_, htransmits⟩
  · have hfive : testBacktrace build.image build.sites eipinfo depth 6 5
        ((cleared build s).call [5] build.first build.sites.room) _ = _ := htest
    rw [i386Init, consInit_eq]
    simp only [Option.bind_eq_bind, Option.bind_some, cprintf_eq octal_prints.stream_eq, hfive]
    exact hmonitor
  · rw [hconsole, ← houtbs, initText]
    simp only [List.map_append, feed_append]

/-! ## Panics and warnings -/

/-- The name of a source file, as an argument. -/
structure FileName where
  addr : Word
  text : List Byte
  behind : List Byte
  addr_ne : addr ≠ 0
  nul : 0 ∉ text
  short : text.length < 2147483648

def FileName.arg (file : FileName) : Arg := .ptr file.addr (file.text ++ 0 :: file.behind)

/-- Where something happened, behind the words `front`. -/
def placeText (front : List Byte) (file : FileName) (line : Word) : List Byte :=
  front ++ (file.text ++ (bytes ":" ++ (signedText line.toInt ++ bytes ": ")))

theorem place_prints {front : List Byte} (hfront : front.all isPlain = true) (file : FileName)
    (line : Word) :
    Prints (front ++ bytes "%s:%d: ") [file.arg, .int line] (placeText front file line) := by
  have hcolon : Prints (bytes ":") [] (bytes ":") := Prints.plain (by decide)
  have hblank : Prints (bytes ": ") [] (bytes ": ") := Prints.plain (by decide)
  exact (Prints.plain hfront).append ((Prints.string file.addr_ne file.nul file.short
    file.behind).append (hcolon.append ((Prints.signed line).append hblank)))

def panicFront : List Byte := bytes "kernel panic at "

def warningFront : List Byte := bytes "kernel warning at "

/-- The whole message, with what the format puts out. -/
def messageOut (front : List Byte) (file : FileName) (line : Word) (out : List Word) : List Word :=
  (placeText front file line).map ofChar ++ (out ++ [0x0A])

/-- A warning is a message and nothing else. -/
theorem warn_prints (file : FileName) (line : Word) {fmt : List Byte} {ap rest : List Arg}
    {out : List Word} (hfmt : stream fmt ap = some (rest, out)) (st : Console) :
    warn file.arg line fmt ap st =
      some (feed cputchar (messageOut warningFront file line out) st) := by
  have hplace : Prints (bytes "kernel warning at %s:%d: ") [file.arg, .int line]
      (placeText warningFront file line) := by
    rw [show bytes "kernel warning at %s:%d: " = warningFront ++ bytes "%s:%d: " by decide]
    exact place_prints (by decide) file line
  have hmessage (st : Console) : vcprintf fmt ap st = some (0, feed cputchar out st) :=
    cprintf_eq hfmt st
  rw [warn, cprintf_eq hplace.stream_eq]
  simp only [Option.bind_eq_bind, Option.bind_some, hmessage,
    cprintf_eq newline_prints.stream_eq]
  rw [messageOut, feed_append, feed_append]
  rfl

/-- A call of `_panic`: where it is made, the format with its address and its
arguments, and the keys that are typed before the next one. -/
structure PanicCall where
  file : FileName
  line : Word
  addr : Word
  fmt : List Byte
  ap : List Arg
  keys : List Word

/-- Calls of `_panic`, each of them out of the monitor that the one before has entered. -/
def panics (build : Build) (tf : τ) (stack : Nat → Nat) :
    List PanicCall → Word → Machine → Option (Word × Machine)
  | [], panicstr, s => some (panicstr, s)
  | c :: calls, panicstr, s => do
      match ← panic build tf stack c.file.arg c.line c.addr c.fmt c.ap c.keys panicstr s with
      | (panicstr, .waiting _ s) => panics build tf stack calls panicstr s
      | (panicstr, .returned s _) => panics build tf stack calls panicstr s

/-- What the monitor prints from its start on, for these keys. -/
def sessionOut (τ : Type) (build : Build) (keys : List Word) : List Word :=
  opening ++ (run (respond (MonitorCommands.entries τ build.sym)) [] keys).1

section Panic

variable (build : Build) (hbuf : 0 < build.buf) (hend : build.buf + BUFLEN ≤ 4294967296) (tf : τ)
  (stack : Nat → Nat)
include hbuf hend

/-- Once there has been a panic, the next one only enters the monitor again,
whatever its message is. -/
theorem panic_again {c : PanicCall} (hkeys : ∀ key ∈ c.keys, key.toNat ≤ 255) {panicstr : Word}
    (hpanicked : panicstr ≠ 0) (s : Machine) :
    ∃ i s', panic build tf stack c.file.arg c.line c.addr c.fmt c.ap c.keys panicstr s =
        some (panicstr, .waiting i s') ∧
      s'.console = feed cputchar (sessionOut τ build c.keys) s.console := by
  obtain ⟨line, s', hrun, _, hconsole⟩ :=
    monitorForever_waits build.sym hbuf hend tf stack hkeys s c.keys.length
  refine ⟨line.length, s', ?_, hconsole⟩
  rw [panic, if_pos hpanicked, hrun]
  rfl

theorem panic_first {c : PanicCall} (hkeys : ∀ key ∈ c.keys, key.toNat ≤ 255) {rest : List Arg}
    {out : List Word} (hfmt : stream c.fmt c.ap = some (rest, out)) (s : Machine) :
    ∃ i s', panic build tf stack c.file.arg c.line c.addr c.fmt c.ap c.keys 0 s =
        some (c.addr, .waiting i s') ∧
      s'.console = feed cputchar (messageOut panicFront c.file c.line out ++
        sessionOut τ build c.keys) s.console := by
  have hplace : Prints (bytes "kernel panic at %s:%d: ") [c.file.arg, .int c.line]
      (placeText panicFront c.file c.line) := by
    rw [show bytes "kernel panic at %s:%d: " = panicFront ++ bytes "%s:%d: " by decide]
    exact place_prints (by decide) c.file c.line
  have hmessage (st : Console) : vcprintf c.fmt c.ap st = some (0, feed cputchar out st) :=
    cprintf_eq hfmt st
  obtain ⟨line, s', hrun, _, hconsole⟩ := monitorForever_waits build.sym hbuf hend tf stack hkeys
    ⟨s.mem, feed cputchar (messageOut panicFront c.file c.line out) s.console⟩ c.keys.length
  refine ⟨line.length, s', ?_, ?_⟩
  · rw [panic, if_neg (not_not.mpr rfl), cprintf_eq hplace.stream_eq]
    simp only [Option.bind_eq_bind, Option.bind_some, hmessage,
      cprintf_eq newline_prints.stream_eq]
    rw [messageOut, feed_append, feed_append] at hrun
    exact congrArg (Option.bind · _) hrun
  · rw [hconsole, sessionOut, ← feed_append]

theorem panics_again {calls : List PanicCall}
    (hkeys : ∀ c ∈ calls, ∀ key ∈ c.keys, key.toNat ≤ 255) {panicstr : Word}
    (hpanicked : panicstr ≠ 0) (s : Machine) :
    ∃ s', panics build tf stack calls panicstr s = some (panicstr, s') ∧
      s'.console = feed cputchar (calls.flatMap fun c => sessionOut τ build c.keys) s.console := by
  induction calls generalizing s with
  | nil => exact ⟨s, rfl, rfl⟩
  | cons c calls ih =>
      rw [List.forall_mem_cons] at hkeys
      obtain ⟨i, s₁, hpanic, hconsole⟩ := panic_again build hbuf hend tf stack hkeys.1 hpanicked s
      obtain ⟨s₂, hrest, hconsole'⟩ := ih hkeys.2 s₁
      refine ⟨s₂, ?_, ?_⟩
      · rw [panics, hpanic]
        exact hrest
      · rw [hconsole', hconsole, ← feed_append, List.flatMap_cons]

/-- However often the kernel panics, the message of the first panic is printed
and no other one, and after each of them the monitor answers. -/
theorem panics_once {c : PanicCall} {calls : List PanicCall}
    (hkeys : ∀ c' ∈ c :: calls, ∀ key ∈ c'.keys, key.toNat ≤ 255) (haddr : c.addr ≠ 0)
    {rest : List Arg} {out : List Word} (hfmt : stream c.fmt c.ap = some (rest, out))
    (s : Machine) :
    ∃ s', panics build tf stack (c :: calls) 0 s = some (c.addr, s') ∧
      s'.console = feed cputchar (messageOut panicFront c.file c.line out ++
        (c :: calls).flatMap fun c => sessionOut τ build c.keys) s.console := by
  rw [List.forall_mem_cons] at hkeys
  obtain ⟨i, s₁, hpanic, hconsole⟩ := panic_first build hbuf hend tf stack hkeys.1 hfmt s
  obtain ⟨s₂, hrest, hconsole'⟩ := panics_again build hbuf hend tf stack hkeys.2 haddr s₁
  refine ⟨s₂, ?_, ?_⟩
  · rw [panics, hpanic]
    exact hrest
  · rw [hconsole', hconsole, ← feed_append, List.flatMap_cons, List.append_assoc]

end Panic

/-! ## A panic inside a panic -/

def mainFile : FileName where
  addr := 0xF0101A00
  text := bytes "kern/init.c"
  behind := []
  addr_ne := by decide
  nul := by decide
  short := by decide

/-- The build of a kernel without debug information. -/
def smallBuild : Build where
  edata := 0xF0110000
  bssEnd := 0xF0111000
  buf := 80
  sym := linked
  image := noStabs
  sites := oneSite
  first := 0xF0F0F0F0

def firstPanic : PanicCall where
  file := mainFile
  line := 40
  addr := 0xF0101A10
  fmt := cstr (bytes "broken")
  ap := []
  keys := (bytes "help").map ofUChar

/-- A second panic with a format that has no string at all. -/
def secondPanic : PanicCall where
  file := mainFile
  line := 41
  addr := 0
  fmt := cstr (bytes "%s")
  ap := []
  keys := (bytes "kerninfo").map ofUChar

theorem panics_once_twice :
    ∃ s', panics smallBuild () (fun _ => 0) [firstPanic, secondPanic] 0 ⟨fun _ => 0, idle⟩ =
        some (0xF0101A10, s') ∧
      s'.console = feed cputchar (messageOut panicFront mainFile 40 ((bytes "broken").map ofChar) ++
        [firstPanic, secondPanic].flatMap fun c => sessionOut Unit smallBuild c.keys) idle := by
  have hkeys : ∀ c ∈ [firstPanic, secondPanic], ∀ key ∈ c.keys, key.toNat ≤ 255 := by
    rw [List.forall_mem_cons, List.forall_mem_singleton]
    exact ⟨ofUChar_le (bytes "help"), ofUChar_le (bytes "kerninfo")⟩
  have hfmt : stream firstPanic.fmt firstPanic.ap = some ([], (bytes "broken").map ofChar) :=
    (Prints.plain (show (bytes "broken").all isPlain = true by decide)).stream_eq
  exact panics_once smallBuild (show 0 < 80 by decide) (show 80 + 1024 ≤ 4294967296 by decide) ()
    (fun _ => 0) hkeys (by decide) hfmt ⟨fun _ => 0, idle⟩

end Kernel

end JOSKernel.Kern.Init
