import JOSKernel.General.Interaction
import JOSKernel.Kern.CommandLine
import JOSKernel.Lib.LineErase

/-!
# The monitor session (`kern/monitor.c`)

`monitor` prints a welcome and then reads lines and runs them as commands until
one of them returns a negative number.  Seen from the keyboard it is an
interaction whose only state is the line typed so far.
-/

namespace JOSKernel.Kern.MonitorLoop

open JOSKernel.General.ByteMemory
open JOSKernel.General.Interaction
open JOSKernel.General.MachineInt
open JOSKernel.General.Words
open JOSKernel.Kern.CommandLine
open JOSKernel.Kern.ConsoleOutput
open JOSKernel.Kern.Printf
open JOSKernel.Lib.FormatText
open JOSKernel.Lib.LineErase
open JOSKernel.Lib.NumberText
open JOSKernel.Lib.Printfmt
open JOSKernel.Lib.Readline
open JOSKernel.Lib
open JOSKernel.Lib.StringRoutines

/-! ## The loop -/

/-- The loop of `readline`, with the keys behind the one that it returns at. -/
def lineKeys : List Word → Editor → Option (Editor × Option (Return × List Word))
  | [], e => some (e, none)
  | c :: keys, e => do
      let (e, result) ← readKey c e
      match result with
      | none => lineKeys keys e
      | some returned => some (e, some (returned, keys))

/-- `readline`, with the keys that it leaves for the next call. -/
def readlineKeys (p : Word) (prompt : List Byte) (keys : List Word) (st : Console)
    (buf : Nat → Byte) : Option (Editor × Option (Return × List Word)) := do
  let st ← if p ≠ 0 then (cprintf (cstr (bytes "%s")) [.ptr p prompt] st).map Prod.snd
    else some st
  lineKeys keys ⟨st, buf, 0⟩

theorem readKeys_lineKeys (keys : List Word) (e : Editor) :
    readKeys keys e = (lineKeys keys e).map fun r => (r.1, r.2.map Prod.fst) := by
  induction keys generalizing e with
  | nil => rfl
  | cons c keys ih =>
      rw [readKeys, lineKeys]
      cases hkey : readKey c e with
      | none => rfl
      | some r =>
          obtain ⟨e', result⟩ := r
          cases result with
          | none => exact ih e'
          | some returned => rfl

/-- It is the `readline` that forgets them. -/
theorem readline_readlineKeys (p : Word) (prompt : List Byte) (keys : List Word) (st : Console)
    (buf : Nat → Byte) :
    readline p prompt keys st buf =
      (readlineKeys p prompt keys st buf).map fun r => (r.1, r.2.map Prod.fst) := by
  rw [readline, readlineKeys]
  split
  · cases cprintf (cstr (bytes "%s")) [.ptr p prompt] st with
    | none => rfl
    | some r => exact readKeys_lineKeys keys ⟨r.2, buf, 0⟩
  · exact readKeys_lineKeys keys ⟨st, buf, 0⟩

/-- Where the monitor stands: in `getchar`, with `i` characters in the buffer,
or it has returned and left some keys. -/
inductive Session where
  | waiting (i : Nat) (s : Machine)
  | returned (s : Machine) (rest : List Word)

section Monitor

variable {τ : Type}

/-- The loop `while (1)`, with the buffer of `readline` at the address `buf`. -/
def monitorLoop (commands : List (Command τ)) (buf : Nat) (tf : τ) (stack : Nat → Nat) :
    Nat → List Word → Machine → Option Session
  | 0, _, _ => none
  | rounds + 1, keys, s => do
      let (e, result) ← readlineKeys literalAddr (cstr (bytes "K> ")) keys s.console
        fun i => s.mem (buf + i)
      let s : Machine := ⟨overlay s.mem buf BUFLEN e.buf, e.console⟩
      match result with
      | none => some (.waiting e.i s)
      | some (.null, keys) => monitorLoop commands buf tf stack rounds keys s
      | some (.buf, keys) => do
          let (r, s) ← runcmdWith commands BUFLEN buf tf stack s
          if r < 0 then some (.returned s keys)
          else monitorLoop commands buf tf stack rounds keys s

def welcome : List Byte :=
  bytes "\x1b[31mWelcome \x1b[32mto \x1b[33mthe \x1b[34mJOS \x1b[35mkernel \x1b[36mmonitor!\x1b[0m" ++
    [10]

def hint : List Byte := bytes "Type 'help' for a list of commands." ++ [10]

/-- The monitor on the characters that `getchar` returns one after another. -/
def monitorWith (commands : List (Command τ)) (buf : Nat) (tf : τ) (stack : Nat → Nat)
    (keys : List Word) (s : Machine) : Option Session := do
  let (_, console) ← cprintf (cstr welcome) [] s.console
  let (_, console) ← cprintf (cstr hint) [] console
  monitorLoop commands buf tf stack (keys.length + 1) keys { s with console }

def monitor (sym : Symbols) (buf : Nat) (tf : τ) (stack : Nat → Nat) (keys : List Word)
    (s : Machine) : Option Session :=
  monitorWith (commands τ sym) buf tf stack keys s

end Monitor

/-! ## The interaction -/

/-- What a key does that does not end the line: the line after it, and what is echoed. -/
def typed (line : List Byte) (c : Word) : List Byte × List Word :=
  if IsErase c ∧ line ≠ [] then (line.dropLast, [0x08])
  else if 0x20 ≤ c.toNat ∧ line.length < BUFLEN - 1 then (line ++ [c.setWidth 8], [c])
  else (line, [])

section Replies

variable {τ : Type}

/-- A command that only prints, always the same text with the same result. -/
structure Entry (τ : Type) where
  command : Command τ
  text : List Byte
  code : Int
  prints : ∀ argc argv tf s, command.func argc argv tf s =
    some (code, { s with console := feed cputchar (text.map ofChar) s.console })

/-- The text that a line prints, and the number that it returns. -/
def reply (table : List (Entry τ)) (line : List Byte) : List Byte × Int :=
  match words IsSpace line with
  | [] => ([], 0)
  | first :: others =>
      if MAXARGS - 1 < (first :: others).length then
        (bytes "Too many arguments (max 16)" ++ [10], 0)
      else
        match table.find? fun entry => entry.command.name = first with
        | some entry => (entry.text, entry.code)
        | none => (bytes "Unknown command '" ++ first ++ (bytes "'" ++ [10]), 0)

theorem reply_blank (table : List (Entry τ)) {line : List Byte} (h : words IsSpace line = []) :
    reply table line = ([], 0) := by
  rw [reply, h]

theorem reply_tooMany (table : List (Entry τ)) {line : List Byte}
    (h : MAXARGS - 1 < (words IsSpace line).length) :
    reply table line = (bytes "Too many arguments (max 16)" ++ [10], 0) := by
  rw [reply]
  cases hwords : words IsSpace line with
  | nil =>
      rw [hwords] at h
      exact absurd h (Nat.not_lt_zero _)
  | cons first others =>
      rw [hwords] at h
      exact if_pos h

theorem reply_command (table : List (Entry τ)) {line first : List Byte} {others : List (List Byte)}
    (h : words IsSpace line = first :: others)
    (hfew : (words IsSpace line).length ≤ MAXARGS - 1) :
    reply table line =
      match table.find? fun entry => entry.command.name = first with
      | some entry => (entry.text, entry.code)
      | none => (bytes "Unknown command '" ++ first ++ (bytes "'" ++ [10]), 0) := by
  rw [h] at hfew
  rw [reply, h]
  exact if_neg (Nat.not_lt.mpr hfew)

def promptText : List Byte := bytes "K> "

/-- The monitor as seen from the keyboard. -/
def respond (table : List (Entry τ)) : Step (List Byte) Word Word := fun line c =>
  if IsReturn c then
    if (reply table line).2 < 0 then (0x0A :: (reply table line).1.map ofChar, none)
    else (0x0A :: ((reply table line).1 ++ promptText).map ofChar, some [])
  else ((typed line c).2, some (typed line c).1)

end Replies

/-! ## One key -/

/-- A line that the buffer can hold. -/
structure Typable (line : List Byte) : Prop where
  nulFree : 0 ∉ line
  fits : line.length ≤ BUFLEN - 1

theorem typed_typable {line : List Byte} (h : Typable line) {c : Word} (hc : c.toNat ≤ 255) :
    Typable (typed line c).1 := by
  unfold typed
  split
  · constructor
    · exact fun hmem => h.nulFree (List.mem_of_mem_dropLast hmem)
    · have hfits := h.fits
      rw [List.length_dropLast]
      omega
  · split
    · rename_i hinsert
      constructor
      · intro hmem
        rcases List.mem_append.mp hmem with hold | hnew
        · exact h.nulFree hold
        · have hvalue : (c.setWidth 8).toNat = c.toNat := by
            rw [BitVec.toNat_setWidth]
            exact Nat.mod_eq_of_lt (Nat.lt_succ_of_le hc)
          have hzero : (0 : Byte).toNat = 0 := rfl
          rw [← List.mem_singleton.mp hnew] at hvalue
          omega
      · rw [List.length_append, List.length_singleton]
        exact hinsert.2
    · exact h

/-- An editor follows the key. -/
theorem readKey_typed {c : Word} (hc : c.toNat ≤ 255) (hreturn : ¬ IsReturn c) (e : Editor) :
    ∃ e', readKey c e = some (e', none) ∧ e'.line = (typed e.line c).1 ∧
      e'.console = feed cputchar (typed e.line c).2 e.console := by
  have hint : c.toInt = c.toNat := BitVec.toInt_eq_toNat_of_lt (by simp only [Nat.reducePow]; omega)
  rw [readKey, if_neg (by omega), typed, e.line_length]
  by_cases herase : IsErase c ∧ e.line ≠ []
  · have hi : e.i > 0 := Nat.pos_of_ne_zero fun hzero => herase.2 ((line_eq_nil_iff e).mpr hzero)
    rw [if_pos herase]
    refine ⟨_, if_pos ⟨herase.1, hi⟩, ?_, rfl⟩
    rw [line_erase hi, List.dropLast_concat]
    rfl
  · have hkeep : ¬ (IsErase c ∧ e.i > 0) := fun h =>
      herase ⟨h.1, fun hnil => Nat.ne_of_gt h.2 ((line_eq_nil_iff e).mp hnil)⟩
    rw [if_neg herase, if_neg hkeep]
    by_cases hinsert : 0x20 ≤ c.toNat ∧ e.i < BUFLEN - 1
    · rw [if_pos hinsert]
      exact ⟨_, if_pos ⟨by omega, hinsert.2⟩, line_insert e _ _, rfl⟩
    · rw [if_neg hinsert]
      refine ⟨e, ?_, rfl, rfl⟩
      rw [if_neg fun h => hinsert ⟨by omega, h.2⟩, if_neg hreturn]

/-- The key that ends the line. -/
theorem readKey_returned {c : Word} (hc : IsReturn c) (e : Editor) :
    readKey c e = some ({ e with console := cputchar 0x0A e.console, buf := Readline.store e.buf e.i 0 },
      some .buf) := by
  have hnonneg : ¬ c.toInt < 0 ∧ ¬ IsErase c ∧ ¬ c.toInt ≥ 0x20 := by
    rcases hc with rfl | rfl
    all_goals decide
  rw [readKey, if_neg hnonneg.1, if_neg fun h => hnonneg.2.1 h.1, if_neg fun h => hnonneg.2.2 h.1,
    if_pos hc]
  rfl

/-! ## One command -/

section Commands

variable {τ : Type}

theorem prints_tooMany : Prints (bytes "Too many arguments (max %d)" ++ [10])
    [.int (BitVec.ofNat 32 MAXARGS)] (bytes "Too many arguments (max 16)" ++ [10]) := by
  have hformat : bytes "Too many arguments (max %d)" ++ [10] =
      bytes "Too many arguments (max " ++ (bytes "%d" ++ (bytes ")" ++ [10])) := by decide
  have htext : bytes "Too many arguments (max 16)" ++ [10] =
      bytes "Too many arguments (max " ++
        (signedText (BitVec.ofNat 32 MAXARGS).toInt ++ (bytes ")" ++ [10])) := by decide
  have hfront : Prints (bytes "Too many arguments (max ") [] (bytes "Too many arguments (max ") :=
    Prints.plain (by decide)
  have hback : Prints (bytes ")" ++ [10]) [] (bytes ")" ++ [10]) := Prints.plain (by decide)
  rw [hformat, htext]
  exact hfront.append ((Prints.signed _).append hback)

theorem prints_unknown {p : Word} (hp : p ≠ 0) {word : List Byte} (hword : 0 ∉ word)
    (hlength : word.length < 2147483648) (rest : List Byte) :
    Prints (bytes "Unknown command '%s'" ++ [10]) [.ptr p (word ++ 0 :: rest)]
      (bytes "Unknown command '" ++ word ++ (bytes "'" ++ [10])) := by
  have hformat : bytes "Unknown command '%s'" ++ [10] =
      bytes "Unknown command '" ++ (bytes "%s" ++ (bytes "'" ++ [10])) := by decide
  have hfront : Prints (bytes "Unknown command '") [] (bytes "Unknown command '") :=
    Prints.plain (by decide)
  have hback : Prints (bytes "'" ++ [10]) [] (bytes "'" ++ [10]) := Prints.plain (by decide)
  rw [hformat, List.append_assoc]
  exact hfront.append ((Prints.string hp hword hlength rest).append hback)

/-- The lookup finds the first entry with the name. -/
theorem invoke_find {fuel argc : Nat} {argv : Nat → Nat} {tf : τ} {s : Machine}
    {word rest : List Byte} (hword : 0 ∉ word)
    (hstring : stringAt fuel s.mem (argv 0) = word ++ 0 :: rest) (table : List (Entry τ)) :
    invoke fuel argc argv tf s (table.map Entry.command) =
      match table.find? fun entry => entry.command.name = word with
      | some entry => entry.command.func argc argv tf s
      | none => invoke fuel argc argv tf s [] := by
  induction table with
  | nil => rfl
  | cons entry table ih =>
      obtain ⟨z, hz, hzero⟩ := strcmp_name hword rest entry.command
      have hround : invoke fuel argc argv tf s ((entry :: table).map Entry.command) =
          if z = 0 then entry.command.func argc argv tf s
          else invoke fuel argc argv tf s (table.map Entry.command) := by
        rw [List.map_cons, invoke, hstring, hz]
        rfl
      by_cases hname : entry.command.name = word
      · rw [hround, if_pos (hzero.mpr hname), List.find?_cons, decide_eq_true hname]
      · rw [hround, if_neg fun h => hname (hzero.mp h), ih, List.find?_cons,
          decide_eq_false hname]

/-- The words are counted, and then the lookup is called or not. -/
theorem runcmdWith_split (commands : List (Command τ)) {buf : Nat} {text : List Byte} {s : Machine}
    {ws : List (Nat × Nat)} (hsplit : Split IsSpace 0 text ws) (htext : Holds s.mem buf text)
    {fuel : Nat} (hfuel : text.length < fuel) (tf : τ) (stack : Nat → Nat) :
    (MAXARGS - 1 < ws.length → ∃ front back, text = front ++ back ∧
      runcmdWith commands fuel buf tf stack s =
        (cprintf (cstr (bytes "Too many arguments (max %d)" ++ [10]))
          [.int (BitVec.ofNat 32 MAXARGS)] s.console).map
            fun r => (0, ⟨wipe s.mem buf front, r.2⟩)) ∧
    (ws.length ≤ MAXARGS - 1 → ∃ argv, Arguments s.mem (wipe s.mem buf text) buf ws stack argv ∧
      runcmdWith commands fuel buf tf stack s =
        if ws.length = 0 then some (0, ⟨wipe s.mem buf text, s.console⟩)
        else invoke fuel ws.length argv tf ⟨wipe s.mem buf text, s.console⟩ commands) := by
  have hstack := setArg_of_lt stack 0 (show 0 < MAXARGS by decide)
  obtain ⟨hargs, hmany⟩ := parseLoop_split hsplit htext hfuel
    (fun j => if j = 0 then 0 else stack j) (Nat.zero_le _)
  rw [Nat.zero_add, Nat.add_zero] at hargs hmany
  constructor
  · intro hover
    obtain ⟨front, back, hfront, hparse⟩ := hmany hover
    refine ⟨front, back, hfront, ?_⟩
    simp only [runcmdWith, hstack, hparse, Option.bind_eq_bind, Option.bind_some]
    cases cprintf (cstr (bytes "Too many arguments (max %d)" ++ [10]))
      [.int (BitVec.ofNat 32 MAXARGS)] s.console <;> rfl
  · intro hfew
    obtain ⟨argv, hpoints, hparse⟩ := hargs hfew
    have hslot : ws.length < MAXARGS := Nat.lt_of_le_of_lt hfew (by decide)
    refine ⟨_, hpoints.arguments htext hsplit.wordsOf hslot, ?_⟩
    simp only [runcmdWith, hstack, hparse, setArg_of_lt argv 0 hslot, Option.bind_eq_bind,
      Option.bind_some, Option.pure_def]

/-- A line is answered: its reply is printed and the buffer alone is changed. -/
theorem runcmdWith_reply (table : List (Entry τ)) {buf : Nat} {line : List Byte} {s : Machine}
    (hbuf : 0 < buf) (hend : buf + line.length < 4294967296)
    (hlength : line.length < 2147483648) (htext : Holds s.mem buf line) {fuel : Nat}
    (hfuel : line.length < fuel) (tf : τ) (stack : Nat → Nat) :
    ∃ mem', runcmdWith (table.map Entry.command) fuel buf tf stack s =
        some ((reply table line).2,
          ⟨mem', feed cputchar ((reply table line).1.map ofChar) s.console⟩) ∧
      Overwrites s.mem mem' buf line := by
  obtain ⟨ws, hsplit⟩ := exists_split IsSpace 0 line
  have hwords := hsplit.wordsOf
  have htexts : words IsSpace line = ws.map (CommandLine.wordText line) :=
    (hsplit.words_eq [] rfl).symm
  have hcount : (words IsSpace line).length = ws.length := by rw [htexts, List.length_map]
  obtain ⟨hmany, hargs⟩ := runcmdWith_split (table.map Entry.command) hsplit htext hfuel tf stack
  rcases Nat.lt_or_ge (MAXARGS - 1) ws.length with hover | hfew
  · obtain ⟨front, back, rfl, hrun⟩ := hmany hover
    refine ⟨wipe s.mem buf front, ?_, wipe_overwrites _ _ _ _⟩
    rw [hrun, cprintf_eq prints_tooMany.stream_eq, reply_tooMany table (by rwa [hcount])]
    rfl
  · obtain ⟨argv, hcalled, hrun⟩ := hargs hfew
    have hwiped := wipe_overwrites s.mem buf line []
    rw [List.append_nil] at hwiped
    refine ⟨wipe s.mem buf line, ?_, hwiped⟩
    cases ws with
    | nil =>
        rw [hrun, reply_blank table htexts]
        rfl
    | cons first others =>
        have hfirst : IsWord IsSpace line first.1 first.2 :=
          (hwords.words first).mp List.mem_cons_self
        have hplace : first.1 + first.2 ≤ line.length := word_end_le hfirst
        obtain ⟨rest, hstring⟩ := word_string htext hfirst hfuel
        have hpointer : argv 0 = buf + first.1 := hcalled.points 0 (Nat.succ_pos _)
        have hplain : 0 ∉ CommandLine.wordText line first := fun h =>
          htext.nulFree (List.mem_of_mem_drop (List.mem_of_mem_take h))
        have hshort : (CommandLine.wordText line first).length < 2147483648 := by
          rw [CommandLine.wordText, List.length_take, List.length_drop]
          omega
        have haddress : BitVec.ofNat 32 (buf + first.1) ≠ 0 := by
          intro hzero
          have hvalue := congrArg BitVec.toNat hzero
          rw [BitVec.toNat_ofNat, Nat.mod_eq_of_lt (by omega)] at hvalue
          exact absurd hvalue (Nat.ne_of_gt (Nat.add_pos_left hbuf _))
        have hnonempty : (first :: others).length ≠ 0 := Nat.succ_ne_zero _
        rw [← hpointer] at hstring
        rw [hrun, if_neg hnonempty, invoke_find (s := ⟨wipe s.mem buf line, s.console⟩) hplain
          hstring, reply_command table htexts (by rwa [hcount])]
        cases table.find? fun entry => entry.command.name = CommandLine.wordText line first with
        | some entry => exact entry.prints _ _ _ _
        | none =>
            have hprints := (prints_unknown haddress hplain hshort rest).stream_eq
            simp only [invoke, hstring]
            rw [hpointer, cprintf_eq hprints]
            simp only [Option.bind_eq_bind, Option.bind_some, Option.pure_def]

end Commands

/-! ## The session -/

theorem Holds.of_bytes {mem : Memory} {p : Nat} {text : List Byte} (hnul : 0 ∉ text)
    (htext : ∀ i (h : i < text.length), mem (p + i) = text[i])
    (hend : mem (p + text.length) = 0) : Holds mem p text := by
  induction text generalizing p with
  | nil => exact hend
  | cons ch text ih =>
      rw [List.mem_cons, not_or] at hnul
      refine ⟨htext 0 (Nat.succ_pos _), Ne.symm hnul.1, ih hnul.2 ?_ ?_⟩
      · intro i hi
        have hnext := htext (i + 1) (Nat.succ_lt_succ hi)
        rw [← Nat.add_assoc, Nat.add_right_comm] at hnext
        exact hnext
      · rw [List.length_cons, ← Nat.add_assoc, Nat.add_right_comm] at hend
        exact hend

theorem line_at (e : Editor) {i : Nat} (hi : i < e.line.length) : e.line[i] = e.buf i := by
  simp [Editor.line]

/-- The buffer in memory holds the line that was entered. -/
theorem entered_holds (mem : Memory) (buf : Nat) {e : Editor} (h : Typable e.line) :
    Holds (overlay mem buf BUFLEN (Readline.store e.buf e.i 0)) buf e.line := by
  have hfits := h.fits
  have hbuflen : BUFLEN = 1024 := rfl
  apply Holds.of_bytes h.nulFree
  · intro i hi
    rw [overlay_apply _ _ _ (by omega), line_at e hi, Readline.store,
      if_neg (by rw [← e.line_length]; exact Nat.ne_of_lt hi)]
  · rw [overlay_apply _ _ _ (by omega), e.line_length, Readline.store, if_pos rfl]

/-- The memory outside the buffer. -/
def Untouched (buf : Nat) (mem mem' : Memory) : Prop :=
  ∀ a, a < buf ∨ buf + BUFLEN ≤ a → mem' a = mem a

/-- Running a line that the buffer holds writes the buffer only. -/
theorem untouched_of_overwrites {mem mem' : Memory} {buf : Nat} {f : Nat → Byte} {line : List Byte}
    (h : Overwrites (overlay mem buf BUFLEN f) mem' buf line) (hline : line.length ≤ BUFLEN) :
    Untouched buf mem mem' := by
  intro a ha
  rw [← overlay_outside mem f ha]
  by_contra hne
  obtain ⟨i, ch, rfl, hi, _⟩ := h a hne
  have hin := (List.getElem?_eq_some_iff.mp hi).1
  omega

section Session

variable {τ : Type} (table : List (Entry τ)) (buf : Nat) (tf : τ) (stack : Nat → Nat)

/-- The monitor inside a call of `readline`. -/
structure Reading where
  rounds : Nat
  mem : Memory
  editor : Editor

/-- The rest of a round, behind the call of `readline`. -/
def afterRead (rounds : Nat) (mem : Memory) (r : Editor × Option (Return × List Word)) :
    Option Session :=
  let s : Machine := ⟨overlay mem buf BUFLEN r.1.buf, r.1.console⟩
  match r.2 with
  | none => some (.waiting r.1.i s)
  | some (.null, keys) => monitorLoop (table.map Entry.command) buf tf stack rounds keys s
  | some (.buf, keys) =>
      (runcmdWith (table.map Entry.command) BUFLEN buf tf stack s).bind fun r =>
        if r.1 < 0 then some (.returned r.2 keys)
        else monitorLoop (table.map Entry.command) buf tf stack rounds keys r.2

def Reading.resume (k : Reading) (keys : List Word) : Option Session :=
  (lineKeys keys k.editor).bind (afterRead table buf tf stack k.rounds k.mem)

def Reading.leave (k : Reading) (rest : List Word) : Option Session :=
  some (.returned ⟨k.mem, k.editor.console⟩ rest)

/-- A monitor that was started on `s₀`, has printed `out` and is in the middle of `line`. -/
structure Stands (s₀ : Machine) (keys : List Word) (line : List Byte) (out : List Word)
    (k : Reading) : Prop where
  rounds_le : keys.length ≤ k.rounds
  keys_le : ∀ c ∈ keys, c.toNat ≤ 255
  line_eq : k.editor.line = line
  typable : Typable line
  console_eq : k.editor.console = feed cputchar out s₀.console
  untouched : Untouched buf s₀.mem k.mem

structure Leaves (s₀ : Machine) (out : List Word) (k : Reading) : Prop where
  console_eq : k.editor.console = feed cputchar out s₀.console
  untouched : Untouched buf s₀.mem k.mem

/-- A round begins with the prompt. -/
theorem monitorLoop_round (rounds : Nat) (keys : List Word) (s : Machine) :
    monitorLoop (table.map Entry.command) buf tf stack (rounds + 1) keys s =
      Reading.resume table buf tf stack
        ⟨rounds, s.mem, feed cputchar (promptText.map ofChar) s.console,
          fun i => s.mem (buf + i), 0⟩ keys := by
  have hprompt : stream (cstr (bytes "%s")) [.ptr literalAddr (cstr promptText)] =
      some ([], promptText.map ofChar) :=
    (Prints.string (by decide) (by decide) (by decide) []).stream_eq
  have hread : readlineKeys literalAddr (cstr (bytes "K> ")) keys s.console
        (fun i => s.mem (buf + i)) =
      lineKeys keys ⟨feed cputchar (promptText.map ofChar) s.console,
        fun i => s.mem (buf + i), 0⟩ := by
    rw [readlineKeys, if_pos (by decide)]
    rw [show cprintf (cstr (bytes "%s")) [.ptr literalAddr (cstr (bytes "K> "))] s.console = _ from
      cprintf_eq hprompt s.console]
    rfl
  rw [monitorLoop, hread, Reading.resume]
  refine congrArg (Option.bind _) (funext ?_)
  rintro ⟨e, _ | ⟨_ | _, rest⟩⟩
  · rfl
  · rfl
  · rfl

/-- The key that ends the line runs it. -/
theorem resume_return {buf : Nat} {s₀ : Machine} {c : Word} {keys : List Word} {line : List Byte}
    {out : List Word} {k : Reading} (hbuf : 0 < buf) (hend : buf + BUFLEN ≤ 4294967296)
    (h : Stands buf s₀ (c :: keys) line out k) (hc : IsReturn c) :
    ∃ s, s.console = feed cputchar (out ++ 0x0A :: (reply table line).1.map ofChar) s₀.console ∧
      Untouched buf s₀.mem s.mem ∧
      k.resume table buf tf stack (c :: keys) =
        if (reply table line).2 < 0 then some (.returned s keys)
        else monitorLoop (table.map Entry.command) buf tf stack k.rounds keys s := by
  have hbuflen : BUFLEN = 1024 := rfl
  have hfits := h.typable.fits
  obtain ⟨hline, hconsole⟩ := And.intro h.line_eq h.console_eq
  subst hline
  have htext := entered_holds k.mem buf h.typable
  obtain ⟨mem', hrun, hover⟩ := runcmdWith_reply table
    (s := ⟨overlay k.mem buf BUFLEN (Readline.store k.editor.buf k.editor.i 0),
      cputchar 0x0A k.editor.console⟩) hbuf (by omega) (by omega) htext
    (show k.editor.line.length < BUFLEN by omega) tf stack
  refine ⟨⟨mem', feed cputchar ((reply table k.editor.line).1.map ofChar)
    (cputchar 0x0A k.editor.console)⟩, ?_, ?_, ?_⟩
  · rw [feed_append, feed_cons, hconsole]
  · intro a ha
    rw [← h.untouched a ha]
    exact untouched_of_overwrites hover (by omega) a ha
  · have hkeys : lineKeys (c :: keys) k.editor =
        some ({ k.editor with
          console := cputchar 0x0A k.editor.console
          buf := Readline.store k.editor.buf k.editor.i 0 }, some (.buf, keys)) := by
      rw [lineKeys, readKey_returned hc]
      rfl
    rw [Reading.resume, hkeys, Option.bind_some, afterRead]
    exact congrArg (Option.bind · _) hrun

/-- Every key does to the monitor what it does to the interaction. -/
theorem follows_respond {buf : Nat} (hbuf : 0 < buf) (hend : buf + BUFLEN ≤ 4294967296) (s₀ : Machine) :
    Follows (respond table) (Reading.resume table buf tf stack) Reading.leave (Stands buf s₀)
      (Leaves buf s₀) where
  goes := by
    intro c keys line line' out more k h hstep
    by_cases hc : IsReturn c
    · obtain ⟨s, hconsole, huntouched, hrun⟩ :=
        resume_return table tf stack hbuf hend h hc
      rw [respond, if_pos hc] at hstep
      by_cases hcode : (reply table line).2 < 0
      · rw [if_pos hcode] at hstep
        cases hstep
      · rw [if_neg hcode] at hstep hrun
        obtain ⟨rfl, hnext⟩ := Prod.mk.inj hstep
        obtain rfl := Option.some.inj hnext
        have hrounds : keys.length + 1 ≤ k.rounds := h.rounds_le
        obtain ⟨rounds, hk⟩ := Nat.exists_eq_add_of_le' (Nat.le_trans (Nat.succ_pos _) hrounds)
        rw [hk] at hrounds hrun
        rw [monitorLoop_round] at hrun
        refine ⟨_, ?_, hrun⟩
        constructor
        · exact Nat.le_of_succ_le_succ hrounds
        · exact fun c hc => h.keys_le c (List.mem_cons_of_mem _ hc)
        · rfl
        · exact ⟨List.not_mem_nil, Nat.zero_le _⟩
        · rw [hconsole, ← feed_append, List.map_append, List.append_assoc, List.cons_append]
        · exact huntouched
    · rw [respond, if_neg hc] at hstep
      obtain ⟨rfl, hnext⟩ := Prod.mk.inj hstep
      obtain rfl := Option.some.inj hnext
      obtain ⟨e', hkey, hline, hconsole⟩ :=
        readKey_typed (h.keys_le c List.mem_cons_self) hc k.editor
      refine ⟨{ k with editor := e' }, ?_, ?_⟩
      · constructor
        · exact Nat.le_trans (Nat.le_succ _) h.rounds_le
        · exact fun c hc => h.keys_le c (List.mem_cons_of_mem _ hc)
        · rw [hline, h.line_eq]
        · exact typed_typable h.typable (h.keys_le c List.mem_cons_self)
        · rw [hconsole, h.line_eq, h.console_eq, ← feed_append]
        · exact h.untouched
      · rw [Reading.resume, lineKeys, hkey]
        rfl
  ends := by
    intro c keys line out more k h hstep
    by_cases hc : IsReturn c
    · obtain ⟨s, hconsole, huntouched, hrun⟩ :=
        resume_return table tf stack hbuf hend h hc
      rw [respond, if_pos hc] at hstep
      by_cases hcode : (reply table line).2 < 0
      · rw [if_pos hcode] at hstep hrun
        obtain ⟨rfl, _⟩ := Prod.mk.inj hstep
        exact ⟨⟨0, s.mem, s.console, fun _ => 0, 0⟩, ⟨hconsole, huntouched⟩, hrun⟩
      · rw [if_neg hcode] at hstep
        cases hstep
    · rw [respond, if_neg hc] at hstep
      cases hstep

/-- How the monitor stands shows how the interaction does: the buffer holds the
line typed so far, everything emitted has been printed, and the memory outside
the buffer is as it was. -/
inductive Shows (buf : Nat) (s₀ : Machine) (out : List Word) :
    Status (List Byte) Word → Session → Prop where
  | waiting {line : List Byte} {s : Machine}
      (hline : ∀ j (h : j < line.length), s.mem (buf + j) = (line)[j])
      (hconsole : s.console = feed cputchar out s₀.console)
      (huntouched : Untouched buf s₀.mem s.mem) :
      Shows buf s₀ out (.waiting line) (.waiting line.length s)
  | returned {s : Machine} {rest : List Word}
      (hconsole : s.console = feed cputchar out s₀.console)
      (huntouched : Untouched buf s₀.mem s.mem) :
      Shows buf s₀ out (.ended rest) (.returned s rest)

/-- Without further keys the monitor waits in the line. -/
theorem Stands.shows {s₀ : Machine} {line : List Byte} {out : List Word} {k : Reading}
    (h : Stands buf s₀ [] line out k) :
    ∃ session, k.resume table buf tf stack [] = some session ∧
      Shows buf s₀ out (.waiting line) session := by
  have hbuflen : BUFLEN = 1024 := rfl
  have hfits := h.typable.fits
  have hcount : k.editor.i = line.length := by rw [← h.line_eq, k.editor.line_length]
  refine ⟨.waiting line.length ⟨overlay k.mem buf BUFLEN k.editor.buf, k.editor.console⟩, ?_, ?_⟩
  · rw [← hcount]
    rfl
  · refine .waiting ?_ h.console_eq ?_
    · intro j hj
      have hline := h.line_eq
      subst hline
      exact (overlay_apply _ _ _ (by omega)).trans (line_at k.editor hj).symm
    · intro a ha
      exact (overlay_outside _ _ ha).trans (h.untouched a ha)

/-- What the monitor prints before the first key. -/
def opening : List Word := (welcome ++ hint ++ promptText).map ofChar

theorem monitorWith_starts (keys : List Word) (s : Machine) :
    monitorWith (table.map Entry.command) buf tf stack keys s =
      Reading.resume table buf tf stack
        ⟨keys.length, s.mem, feed cputchar opening s.console, fun i => s.mem (buf + i), 0⟩ keys := by
  have hwelcome : stream (cstr welcome) [] = some ([], welcome.map ofChar) :=
    (Prints.plain (by decide)).stream_eq
  have hhint : stream (cstr hint) [] = some ([], hint.map ofChar) :=
    (Prints.plain (by decide)).stream_eq
  rw [monitorWith, cprintf_eq hwelcome]
  simp only [Option.bind_eq_bind, Option.bind_some, cprintf_eq hhint]
  rw [monitorLoop_round, opening, List.map_append, List.map_append, feed_append, feed_append]

theorem resume_shows {buf : Nat} (hbuf : 0 < buf) (hend : buf + BUFLEN ≤ 4294967296) {s₀ : Machine}
    {keys : List Word} {line : List Byte} {out : List Word} {k : Reading}
    (h : Stands buf s₀ keys line out k) :
    ∃ session, k.resume table buf tf stack keys = some session ∧
      Shows buf s₀ (out ++ (run (respond table) line keys).1) (run (respond table) line keys).2
        session := by
  have hfollows := follows_respond table tf stack hbuf hend s₀
  rcases hrun : run (respond table) line keys with ⟨more, line' | rest⟩
  · obtain ⟨k', hk', hresume⟩ := hfollows.waiting h hrun
    obtain ⟨session, hsession, hshows⟩ := hk'.shows table buf tf stack
    exact ⟨session, hresume.trans hsession, hshows⟩
  · obtain ⟨k', hk', hresume⟩ := hfollows.ended h hrun
    exact ⟨_, hresume, .returned hk'.console_eq hk'.untouched⟩

theorem stands_opening (buf : Nat) {keys : List Word} (hkeys : ∀ c ∈ keys, c.toNat ≤ 255)
    (s : Machine) :
    Stands buf s keys [] opening
      ⟨keys.length, s.mem, feed cputchar opening s.console, fun i => s.mem (buf + i), 0⟩ where
  rounds_le := Nat.le_refl _
  keys_le := hkeys
  line_eq := rfl
  typable := ⟨List.not_mem_nil, Nat.zero_le _⟩
  console_eq := rfl
  untouched _ _ := rfl

/-- With any table of printing commands and on any keys the monitor prints what
the interaction emits and stops where it stops. -/
theorem monitor_session (table : List (Entry τ)) {buf : Nat} (hbuf : 0 < buf)
    (hend : buf + BUFLEN ≤ 4294967296) (tf : τ) (stack : Nat → Nat) {keys : List Word}
    (hkeys : ∀ c ∈ keys, c.toNat ≤ 255) (s : Machine) :
    ∃ session, monitorWith (table.map Entry.command) buf tf stack keys s = some session ∧
      Shows buf s (opening ++ (run (respond table) [] keys).1) (run (respond table) [] keys).2
        session := by
  rw [monitorWith_starts]
  exact resume_shows table tf stack hbuf hend (stands_opening buf hkeys s)

theorem ofUChar_le (text : List Byte) : ∀ c ∈ text.map ofUChar, c.toNat ≤ 255 := by
  intro c hc
  obtain ⟨b, _, rfl⟩ := List.mem_map.mp hc
  rw [ofUChar, BitVec.toNat_setWidth_of_le (by decide)]
  exact Nat.le_of_lt_succ b.isLt

/-- A command that leaves the monitor. -/
def leaving : Entry Unit where
  command :=
    { name := bytes "exit", desc := bytes "Leave the monitor", func := fun _ _ _ s => some (-1, s),
      nulFree := by decide }
  text := []
  code := -1
  prints _ _ _ _ := rfl

/-- It is typed with a slip, and one key more is left. -/
theorem monitor_session_exit :
    ∃ session, monitorWith ([leaving].map Entry.command) 80 () (fun _ => 0)
        ((bytes " exut\x08\x08it now\r?").map ofUChar) ⟨fun _ => 0, idle⟩ = some session ∧
      Shows 80 ⟨fun _ => 0, idle⟩
        (opening ++ (run (respond [leaving]) []
          ((bytes " exut\x08\x08it now\r?").map ofUChar)).1) (.ended [0x3F]) session := by
  have hends : (run (respond [leaving]) [] ((bytes " exut\x08\x08it now\r?").map ofUChar)).2 =
      .ended [0x3F] := rfl
  obtain ⟨session, hrun, hshows⟩ := monitor_session [leaving] (show 0 < 80 by decide)
    (show 80 + 1024 ≤ 4294967296 by decide) () (fun _ => 0)
    (ofUChar_le (bytes " exut\x08\x08it now\r?")) ⟨fun _ => 0, idle⟩
  rw [hends] at hshows
  exact ⟨session, hrun, hshows⟩

end Session

end JOSKernel.Kern.MonitorLoop
