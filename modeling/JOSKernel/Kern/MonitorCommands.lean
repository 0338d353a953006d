import JOSKernel.Kern.ConsolePorts
import JOSKernel.Kern.MonitorLoop

/-!
# The commands of the monitor (`kern/monitor.c`)

Both commands of the kernel print a fixed text and return zero.  No line ends
the session, and a terminal on the serial line gets the whole transcript.
-/

namespace JOSKernel.Kern.MonitorCommands

open JOSKernel.General.Interaction
open JOSKernel.General.MachineInt
open JOSKernel.Kern.CommandLine
open JOSKernel.Kern.ConsoleOutput
open JOSKernel.Kern.ConsolePorts
open JOSKernel.Kern.MonitorLoop
open JOSKernel.Kern.Printf
open JOSKernel.Lib.FormatText
open JOSKernel.Lib.LineErase
open JOSKernel.Lib.NumberText
open JOSKernel.Lib.Printfmt
open JOSKernel.Lib.Readline
open JOSKernel.Lib.StringRoutines

/-! ## Texts -/

def helpLine (entry : String × String) : List Byte :=
  bytes entry.1 ++ (bytes " - " ++ (bytes entry.2 ++ [10]))

/-- A string that `%s` can print. -/
def Printed (s : String) : Prop := 0 ∉ bytes s ∧ (bytes s).length < 2147483648

theorem prints_help {name desc : String} (hname : Printed name) (hdesc : Printed desc) :
    Prints (bytes "%s - %s" ++ [10]) [literal name, literal desc] (helpLine (name, desc)) := by
  have hformat : bytes "%s - %s" ++ [10] =
      bytes "%s" ++ (bytes " - " ++ (bytes "%s" ++ [10])) := by decide
  have hdash : Prints (bytes " - ") [] (bytes " - ") := Prints.plain (by decide)
  have hnewline : Prints [10] [] [10] := Prints.plain (by decide)
  have hpointer : literalAddr ≠ 0 := by decide
  rw [hformat]
  exact (Prints.string hpointer hname.1 hname.2 []).append
    (hdash.append ((Prints.string hpointer hdesc.1 hdesc.2 []).append hnewline))

theorem helpLoop_eq {texts : List (String × String)}
    (htexts : ∀ entry ∈ texts, Printed entry.1 ∧ Printed entry.2) (st : Console) :
    helpLoop texts st = some (feed cputchar ((texts.flatMap helpLine).map ofChar) st) := by
  induction texts generalizing st with
  | nil => rfl
  | cons entry texts ih =>
      obtain ⟨hname, hdesc⟩ := htexts entry List.mem_cons_self
      rw [helpLoop, cprintf_eq (prints_help hname hdesc).stream_eq, Option.bind_eq_bind,
        Option.bind_some, List.flatMap_cons, List.map_append, feed_append]
      exact ih (fun entry hentry => htexts entry (List.mem_cons_of_mem _ hentry)) _

def helpText : List Byte := commandTexts.flatMap helpLine

theorem monHelp_prints {τ : Type} (argc : Nat) (argv : Nat → Nat) (tf : τ) (s : Machine) :
    monHelp argc argv tf s =
      some (0, { s with console := feed cputchar (helpText.map ofChar) s.console }) := by
  have htexts : ∀ entry ∈ commandTexts, Printed entry.1 ∧ Printed entry.2 := by
    unfold Printed
    decide
  rw [monHelp, helpLoop_eq htexts]
  rfl

/-- A line of a call, and what it prints. -/
def LinePrints (line : String × List Word) (text : List Byte) : Prop :=
  Prints (bytes line.1 ++ [10]) (line.2.map .int) text

theorem printLines_eq {lines : List (String × List Word)} {texts : List (List Byte)}
    (h : List.Forall₂ LinePrints lines texts) (st : Console) :
    printLines lines st = some (feed cputchar (texts.flatten.map ofChar) st) := by
  induction h generalizing st with
  | nil => rfl
  | @cons line text lines texts hline _ ih =>
      rw [printLines, cprintf_eq (Prints.stream_eq hline), Option.bind_eq_bind, Option.bind_some,
        List.flatten_cons, List.map_append, feed_append]
      exact ih _

/-- A symbol at its virtual and at its physical address. -/
def symbolText (front : String) (v : Word) : List Byte :=
  bytes front ++ (wordText v ++ (bytes " (virt)  " ++
    (wordText (v - BitVec.ofNat 32 KERNBASE) ++ (bytes " (phys)" ++ [10]))))

def kerninfoTexts (sym : Symbols) : List (List Byte) :=
  [bytes "Special kernel symbols:" ++ [10],
    bytes "  _start                  " ++ (wordText sym.start ++ (bytes " (phys)" ++ [10])),
    symbolText "  entry  " sym.entry,
    symbolText "  etext  " sym.etext,
    symbolText "  edata  " sym.edata,
    symbolText "  end    " sym.last,
    bytes "Kernel executable memory footprint: " ++
      (signedText (footprint sym).toInt ++ (bytes "KB" ++ [10]))]

def kerninfoText (sym : Symbols) : List Byte := (kerninfoTexts sym).flatten

theorem prints_symbol {line front : String} (v : Word)
    (hline : bytes line ++ [10] = bytes front ++ (bytes "%08x" ++ (bytes " (virt)  " ++
      (bytes "%08x" ++ (bytes " (phys)" ++ [10])))))
    (hfront : (bytes front).all isPlain = true) :
    LinePrints (line, [v, v - BitVec.ofNat 32 KERNBASE]) (symbolText front v) := by
  have hvirt : Prints (bytes " (virt)  ") [] (bytes " (virt)  ") := Prints.plain (by decide)
  have hphys : Prints (bytes " (phys)" ++ [10]) [] (bytes " (phys)" ++ [10]) :=
    Prints.plain (by decide)
  rw [LinePrints, hline]
  exact (Prints.plain hfront).append ((Prints.word v).append (hvirt.append
    ((Prints.word (v - BitVec.ofNat 32 KERNBASE)).append hphys)))

theorem kerninfo_prints (sym : Symbols) :
    List.Forall₂ LinePrints (kerninfoLines sym) (kerninfoTexts sym) := by
  have htitle : Prints (bytes "Special kernel symbols:" ++ [10]) []
      (bytes "Special kernel symbols:" ++ [10]) := Prints.plain (by decide)
  have hphys : Prints (bytes " (phys)" ++ [10]) [] (bytes " (phys)" ++ [10]) :=
    Prints.plain (by decide)
  have hkilo : Prints (bytes "KB" ++ [10]) [] (bytes "KB" ++ [10]) := Prints.plain (by decide)
  have hstart : Prints (bytes "  _start                  ") [] (bytes "  _start                  ") :=
    Prints.plain (by decide)
  have hfootprint : Prints (bytes "Kernel executable memory footprint: ") []
      (bytes "Kernel executable memory footprint: ") := Prints.plain (by decide)
  have hstartLine : bytes "  _start                  %08x (phys)" ++ [10] =
      bytes "  _start                  " ++ (bytes "%08x" ++ (bytes " (phys)" ++ [10])) := by decide
  have hfootprintLine : bytes "Kernel executable memory footprint: %dKB" ++ [10] =
      bytes "Kernel executable memory footprint: " ++ (bytes "%d" ++ (bytes "KB" ++ [10])) := by
    decide
  refine .cons htitle (.cons ?_ (.cons ?_ (.cons ?_ (.cons ?_ (.cons ?_ (.cons ?_ .nil))))))
  · rw [LinePrints, hstartLine]
    exact hstart.append ((Prints.word sym.start).append hphys)
  · exact prints_symbol _ (by decide) (by decide)
  · exact prints_symbol _ (by decide) (by decide)
  · exact prints_symbol _ (by decide) (by decide)
  · exact prints_symbol _ (by decide) (by decide)
  · rw [LinePrints, hfootprintLine]
    exact hfootprint.append ((Prints.signed (footprint sym)).append hkilo)

theorem monKerninfo_prints {τ : Type} (sym : Symbols) (argc : Nat) (argv : Nat → Nat) (tf : τ)
    (s : Machine) :
    monKerninfo sym argc argv tf s =
      some (0, { s with console := feed cputchar ((kerninfoText sym).map ofChar) s.console }) := by
  rw [monKerninfo, printLines_eq (kerninfo_prints sym)]
  rfl

/-! ## The kernel's session -/

section Kernel

variable (τ : Type) (sym : Symbols)

theorem help_nulFree : 0 ∉ bytes "help" := by decide

theorem kerninfo_nulFree : 0 ∉ bytes "kerninfo" := by decide

def entries : List (Entry τ) :=
  [{ command := ⟨bytes "help", bytes "Display this list of commands", monHelp, help_nulFree⟩,
      text := helpText, code := 0, prints := monHelp_prints },
    { command := ⟨bytes "kerninfo", bytes "Display information about the kernel",
        monKerninfo sym, kerninfo_nulFree⟩,
      text := kerninfoText sym, code := 0, prints := monKerninfo_prints sym }]

theorem entries_commands : (entries τ sym).map Entry.command = commands τ sym := rfl

variable {τ}

/-- No reply is negative. -/
theorem reply_code {table : List (Entry τ)} (hcodes : ∀ entry ∈ table, ¬ entry.code < 0)
    (line : List Byte) : ¬ (reply table line).2 < 0 := by
  rw [reply]
  split
  · exact Int.lt_irrefl 0
  · rename_i first others _
    split
    · exact Int.lt_irrefl 0
    · split
      · rename_i entry hfind
        exact hcodes entry (List.mem_of_find?_eq_some hfind)
      · exact Int.lt_irrefl 0

theorem respond_goes_on {table : List (Entry τ)} (hcodes : ∀ entry ∈ table, ¬ entry.code < 0)
    (line : List Byte) (c : Word) : (respond table line c).2 ≠ none := by
  rw [respond]
  split
  · rw [if_neg (reply_code hcodes line)]
    exact Option.some_ne_none _
  · exact Option.some_ne_none _

theorem entries_codes : ∀ entry ∈ entries τ sym, ¬ entry.code < 0 := by
  intro entry hentry
  simp only [entries, List.mem_cons, List.not_mem_nil, or_false] at hentry
  rcases hentry with rfl | rfl
  · exact Int.lt_irrefl 0
  · exact Int.lt_irrefl 0

theorem feed_cputchars (out : List Word) (st : Console) : feed cputchar out st = cputchars out st :=
  rfl

/-- Whatever is typed, the kernel's monitor waits for more: it has answered
every line, and its buffer holds the line typed so far. -/
theorem monitor_waits {buf : Nat} (hbuf : 0 < buf) (hend : buf + BUFLEN ≤ 4294967296) (tf : τ)
    (stack : Nat → Nat) {keys : List Word} (hkeys : ∀ c ∈ keys, c.toNat ≤ 255) (s : Machine) :
    ∃ line s', monitor sym buf tf stack keys s = some (.waiting line.length s') ∧
      (run (respond (entries τ sym)) [] keys).2 = .waiting line ∧
      (∀ j (h : j < line.length), s'.mem (buf + j) = (line)[j]) ∧
      Untouched buf s.mem s'.mem ∧
      s'.console = feed cputchar (opening ++ (run (respond (entries τ sym)) [] keys).1)
        s.console := by
  obtain ⟨line, hline⟩ := run_waiting (respond_goes_on (entries_codes sym)) ([] : List Byte) keys
  have hshown := resume_shows (entries τ sym) tf stack hbuf hend (stands_opening buf hkeys s)
  obtain ⟨session, hrun, hshows⟩ := hshown
  rw [← monitorWith_starts, entries_commands] at hrun
  rw [hline] at hshows
  cases hshows with
  | @waiting _ s' hcells hconsole huntouched =>
      exact ⟨line, s', hrun, hline, hcells, huntouched, hconsole⟩

/-- The serial port has then been sent the transcript and nothing else. -/
theorem monitor_serial {buf : Nat} (hbuf : 0 < buf) (hend : buf + BUFLEN ≤ 4294967296) (tf : τ)
    (stack : Nat → Nat) {keys : List Word} (hkeys : ∀ c ∈ keys, c.toNat ≤ 255) (s : Machine) :
    ∃ line s', monitor sym buf tf stack keys s = some (.waiting line.length s') ∧
      (run (respond (entries τ sym)) [] keys).2 = .waiting line ∧
      (∀ j (h : j < line.length), s'.mem (buf + j) = (line)[j]) ∧
      Untouched buf s.mem s'.mem ∧
      Sends COM1 s.console s'.console
        ((opening ++ (run (respond (entries τ sym)) [] keys).1).flatMap portBytes) := by
  obtain ⟨line, s', hrun, hline, hcells, huntouched, hconsole⟩ :=
    monitor_waits sym hbuf hend tf stack hkeys s
  refine ⟨line, s', hrun, hline, hcells, huntouched, ?_⟩
  rw [hconsole, feed_cputchars]
  exact cputchars_sends .serial _ s.console

/-- A help request, and a line that is begun. -/
theorem monitor_serial_help :
    ∃ line s', monitor linked 80 () (fun _ => 0) ((bytes "help\nkern").map ofUChar)
        ⟨fun _ => 0, idle⟩ = some (.waiting line.length s') ∧
      (run (respond (entries Unit linked)) [] ((bytes "help\nkern").map ofUChar)).2 =
        .waiting line ∧
      (∀ j (h : j < line.length), s'.mem (80 + j) = (line)[j]) ∧
      Untouched 80 (fun _ => 0) s'.mem ∧
      Sends COM1 idle s'.console
        ((opening ++ (run (respond (entries Unit linked)) []
          ((bytes "help\nkern").map ofUChar)).1).flatMap portBytes) :=
  monitor_serial linked (show 0 < 80 by decide) (show 80 + 1024 ≤ 4294967296 by decide) ()
    (fun _ => 0) (ofUChar_le (bytes "help\nkern")) ⟨fun _ => 0, idle⟩

end Kernel

end JOSKernel.Kern.MonitorCommands
