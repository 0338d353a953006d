import JOSKernel.General.BoundedLoop
import JOSKernel.General.Words
import JOSKernel.Kern.Printf
import JOSKernel.Lib.StringCompare

/-!
# The command line (`kern/monitor.c`)

`runcmd` cuts the command buffer into words in place: the whitespace in front
of each word is overwritten with NULs, and so is the terminator of a word when
the next round gobbles it.  The first word is looked up in the table of
commands.
-/

namespace JOSKernel.Kern.CommandLine

open JOSKernel.General.BoundedLoop
open JOSKernel.General.ByteMemory
open JOSKernel.General.MachineInt
open JOSKernel.General.Words
open JOSKernel.Kern.ConsoleOutput
open JOSKernel.Kern.Printf
open JOSKernel.Lib.Printfmt
open JOSKernel.Lib.StringCompare
open JOSKernel.Lib.StringRoutines

/-- The memory that holds the command buffer, and the console. -/
structure Machine where
  mem : Memory
  console : Console

/-- A command, called with `argc`, the array `argv` and the trap frame. -/
structure Command (τ : Type) where
  name : List Byte
  desc : List Byte
  func : Nat → (Nat → Nat) → τ → Machine → Option (Int × Machine)
  nulFree : 0 ∉ name

def WHITESPACE : List Byte := bytes "\t\r\n "

def MAXARGS : Nat := 16

/-- The test `strchr(WHITESPACE, ch)`. -/
def isWhitespace (ch : Byte) : Bool :=
  match strchr (cstr WHITESPACE) ch with
  | some (some _) => true
  | _ => false

/-- The assignment `argv[i] = p`. -/
def setArg (argv : Nat → Nat) (i p : Nat) : Option (Nat → Nat) :=
  if i < MAXARGS then some fun j => if j = i then p else argv j else none

/-! ## Parsing the command buffer -/

/-- Gobble whitespace: `while (*buf && strchr(WHITESPACE, *buf)) *buf++ = 0;` -/
def gobble (fuel : Nat) (mem : Memory) (buf : Nat) : Option (Memory × Nat) :=
  whileLoop (fun s => s.1 s.2 != 0 && isWhitespace (s.1 s.2))
    (fun s => (store s.1 s.2 0, s.2 + 1)) fuel (mem, buf)

/-- Scan past the next arg: `while (*buf && !strchr(WHITESPACE, *buf)) buf++;` -/
def scan (fuel : Nat) (mem : Memory) (buf : Nat) : Option Nat :=
  whileLoop (fun buf => mem buf != 0 && !isWhitespace (mem buf)) (fun buf => buf + 1) fuel buf

inductive Parsed where
  | tooMany (mem : Memory)
  | args (mem : Memory) (argc : Nat) (argv : Nat → Nat)

/-- The loop `while (1)`. -/
def parseLoop (fuel : Nat) (mem : Memory) (buf argc : Nat) (argv : Nat → Nat) : Option Parsed :=
  match fuel with
  | 0 => none
  | rounds + 1 => do
      let (mem, buf) ← gobble fuel mem buf
      if mem buf = 0 then return .args mem argc argv
      else if argc = MAXARGS - 1 then return .tooMany mem
      else do
        let argv ← setArg argv argc buf
        let buf ← scan fuel mem buf
        parseLoop rounds mem buf (argc + 1) argv

/-! ## Looking up the command -/

/-- The string a pointer points to, as far as `fuel` bytes. -/
def stringAt (fuel : Nat) (mem : Memory) (p : Nat) : List Byte := readBytes mem p fuel

section Commands

variable {τ : Type}

/-- The loop over the table, from some entry on. -/
def invoke (fuel : Nat) (argc : Nat) (argv : Nat → Nat) (tf : τ) (s : Machine) :
    List (Command τ) → Option (Int × Machine)
  | [] => do
      let (_, console) ← cprintf (cstr (bytes "Unknown command '%s'" ++ [10]))
        [.ptr (BitVec.ofNat 32 (argv 0)) (stringAt fuel s.mem (argv 0))] s.console
      return (0, { s with console })
  | command :: table => do
      let order ← strcmp (stringAt fuel s.mem (argv 0)) (cstr command.name)
      if order = 0 then command.func argc argv tf s
      else invoke fuel argc argv tf s table

/-- `runcmd` with the table `commands`.  The array `argv` starts out as the
stack has it. -/
def runcmdWith (commands : List (Command τ)) (fuel : Nat) (buf : Nat) (tf : τ)
    (stack : Nat → Nat) (s : Machine) : Option (Int × Machine) := do
  let argv ← setArg stack 0 0
  match ← parseLoop fuel s.mem buf 0 argv with
  | .tooMany mem => do
      let (_, console) ← cprintf (cstr (bytes "Too many arguments (max %d)" ++ [10]))
        [.int (BitVec.ofNat 32 MAXARGS)] s.console
      return (0, ⟨mem, console⟩)
  | .args mem argc argv => do
      let argv ← setArg argv argc 0
      if argc = 0 then return (0, ⟨mem, s.console⟩)
      else invoke fuel argc argv tf ⟨mem, s.console⟩ commands

end Commands

/-! ## The commands of the kernel -/

def commandTexts : List (String × String) :=
  [("help", "Display this list of commands"),
    ("kerninfo", "Display information about the kernel")]

/-- The loop of `mon_help`. -/
def helpLoop : List (String × String) → Console → Option Console
  | [], st => some st
  | (name, desc) :: rest, st => do
      let (_, st) ← cprintf (cstr (bytes "%s - %s" ++ [10])) [literal name, literal desc] st
      helpLoop rest st

def monHelp {τ : Type} (_argc : Nat) (_argv : Nat → Nat) (_tf : τ) (s : Machine) :
    Option (Int × Machine) := do
  let console ← helpLoop commandTexts s.console
  return (0, { s with console })

/-- The symbols of the linked kernel; `last` is `end`. -/
structure Symbols where
  start : Word
  entry : Word
  etext : Word
  edata : Word
  last : Word

/-- `ROUNDUP(a, 1024)`, computed in `uint32_t`. -/
def roundUpKilo (a : Word) : Word := (a + 1024 - 1) - (a + 1024 - 1) % 1024

/-- Signed, like the difference of two pointers. -/
def footprint (sym : Symbols) : Word := (roundUpKilo (sym.last - sym.entry)).sdiv 1024

def kerninfoLines (sym : Symbols) : List (String × List Word) :=
  let phys (v : Word) : Word := v - BitVec.ofNat 32 KERNBASE
  [("Special kernel symbols:", []),
    ("  _start                  %08x (phys)", [sym.start]),
    ("  entry  %08x (virt)  %08x (phys)", [sym.entry, phys sym.entry]),
    ("  etext  %08x (virt)  %08x (phys)", [sym.etext, phys sym.etext]),
    ("  edata  %08x (virt)  %08x (phys)", [sym.edata, phys sym.edata]),
    ("  end    %08x (virt)  %08x (phys)", [sym.last, phys sym.last]),
    ("Kernel executable memory footprint: %dKB", [footprint sym])]

/-- The calls of `cprintf`, one a line. -/
def printLines : List (String × List Word) → Console → Option Console
  | [], st => some st
  | (line, args) :: rest, st => do
      let (_, st) ← cprintf (cstr (bytes line ++ [10])) (args.map .int) st
      printLines rest st

def monKerninfo {τ : Type} (sym : Symbols) (_argc : Nat) (_argv : Nat → Nat) (_tf : τ)
    (s : Machine) : Option (Int × Machine) := do
  let console ← printLines (kerninfoLines sym) s.console
  return (0, { s with console })

def commands (τ : Type) (sym : Symbols) : List (Command τ) :=
  [{ name := bytes "help", desc := bytes "Display this list of commands", func := monHelp,
      nulFree := by decide },
    { name := bytes "kerninfo", desc := bytes "Display information about the kernel",
      func := monKerninfo sym, nulFree := by decide }]

/-- `mon_help` lists the table. -/
example (τ : Type) (sym : Symbols) :
    (commands τ sym).map (fun command => (command.name, command.desc)) =
      commandTexts.map (fun text => (bytes text.1, bytes text.2)) := rfl

def runcmd {τ : Type} (sym : Symbols) (fuel : Nat) (buf : Nat) (tf : τ) (stack : Nat → Nat)
    (s : Machine) : Option (Int × Machine) :=
  runcmdWith (commands τ sym) fuel buf tf stack s

/-! ## The buffer -/

/-- What separates words. -/
abbrev IsSpace (ch : Byte) : Prop := ch = 9 ∨ ch = 13 ∨ ch = 10 ∨ ch = ascii ' '

theorem isWhitespace_iff (ch : Byte) : isWhitespace ch = true ↔ IsSpace ch := by
  obtain ⟨p, hp, hfound⟩ := strchr_cstr (s := WHITESPACE) (by decide) [] ch
  have hmem : ch ∈ WHITESPACE ↔ IsSpace ch := by
    rw [show WHITESPACE = [9, 13, 10, ascii ' '] from rfl]
    simp only [List.mem_cons, List.not_mem_nil, or_false]
  rw [← hmem, ← hfound, isWhitespace, cstr, hp]
  cases p <;> simp

/-- The memory holds a NUL-terminated text. -/
def Holds (mem : Memory) : Nat → List Byte → Prop
  | p, [] => mem p = 0
  | p, ch :: text => mem p = ch ∧ ch ≠ 0 ∧ Holds mem (p + 1) text

instance Holds.decidable (mem : Memory) : ∀ p text, Decidable (Holds mem p text)
  | p, [] => inferInstanceAs (Decidable (mem p = 0))
  | p, ch :: text =>
      have := Holds.decidable mem (p + 1) text
      inferInstanceAs (Decidable (mem p = ch ∧ ch ≠ 0 ∧ Holds mem (p + 1) text))

/-- The memory with the whitespace of a text overwritten. -/
def wipe (mem : Memory) : Nat → List Byte → Memory
  | _, [] => mem
  | p, ch :: text => wipe (if IsSpace ch then store mem p 0 else mem) (p + 1) text

theorem Holds.congr {mem mem' : Memory} {p : Nat} {text : List Byte} (h : Holds mem p text)
    (hsame : ∀ a, p ≤ a → mem' a = mem a) : Holds mem' p text := by
  induction text generalizing p with
  | nil => exact (hsame p (Nat.le_refl p)).trans h
  | cons ch text ih =>
      obtain ⟨hch, hne, hrest⟩ := h
      refine ⟨(hsame p (Nat.le_refl p)).trans hch, hne, ih hrest fun a ha => ?_⟩
      exact hsame a (Nat.le_of_succ_le ha)

theorem Holds.append {mem : Memory} {p : Nat} {front text : List Byte}
    (h : Holds mem p (front ++ text)) : Holds mem (p + front.length) text := by
  induction front generalizing p with
  | nil => exact h
  | cons ch front ih =>
      have hrest := ih h.2.2
      rw [List.length_cons, Nat.add_comm front.length, ← Nat.add_assoc]
      exact hrest

theorem Holds.at {mem : Memory} {p : Nat} {text : List Byte} (h : Holds mem p text) {i : Nat}
    {ch : Byte} (hi : text[i]? = some ch) : mem (p + i) = ch := by
  induction text generalizing p i with
  | nil => cases hi
  | cons first text ih =>
      cases i with
      | zero => exact h.1.trans (Option.some.inj hi)
      | succ i =>
          have hrest := ih h.2.2 hi
          rw [Nat.add_assoc, Nat.add_comm 1] at hrest
          exact hrest

theorem Holds.nul {mem : Memory} {p : Nat} {text : List Byte} (h : Holds mem p text) :
    mem (p + text.length) = 0 := by
  rw [← List.append_nil text] at h
  exact h.append

theorem wipe_append (mem : Memory) (p : Nat) (front text : List Byte) :
    wipe mem p (front ++ text) = wipe (wipe mem p front) (p + front.length) text := by
  induction front generalizing mem p with
  | nil => rfl
  | cons ch front ih =>
      rw [List.cons_append, wipe, wipe, ih, List.length_cons, Nat.add_comm front.length,
        Nat.add_assoc]

theorem wipe_word (mem : Memory) (p : Nat) {word : List Byte} (h : ∀ ch ∈ word, ¬ IsSpace ch) :
    wipe mem p word = mem := by
  induction word generalizing p with
  | nil => rfl
  | cons ch word ih =>
      rw [wipe, if_neg (h ch List.mem_cons_self)]
      exact ih _ fun ch hch => h ch (List.mem_cons_of_mem _ hch)

theorem wipe_before (mem : Memory) {p a : Nat} (text : List Byte) (ha : a < p) :
    wipe mem p text a = mem a := by
  induction text generalizing mem p with
  | nil => rfl
  | cons ch text ih =>
      rw [wipe, ih _ (Nat.lt_succ_of_lt ha)]
      split
      · exact store_of_ne _ _ (Nat.ne_of_lt ha)
      · rfl

/-- Behind the text nothing is overwritten. -/
theorem wipe_behind (mem : Memory) {p a : Nat} (text : List Byte) (ha : p + text.length ≤ a) :
    wipe mem p text a = mem a := by
  induction text generalizing mem p with
  | nil => rfl
  | cons ch text ih =>
      rw [List.length_cons] at ha
      rw [wipe, ih _ (by omega)]
      split
      · exact store_of_ne _ _ (by omega)
      · rfl

theorem wipe_at (mem : Memory) (p : Nat) {text : List Byte} {i : Nat} {ch : Byte}
    (hi : text[i]? = some ch) :
    wipe mem p text (p + i) = if IsSpace ch then 0 else mem (p + i) := by
  induction text generalizing mem p i with
  | nil => cases hi
  | cons first text ih =>
      cases i with
      | zero =>
          obtain rfl : first = ch := Option.some.inj hi
          rw [Nat.add_zero, wipe, wipe_before _ _ (Nat.lt_succ_self p)]
          split
          · exact store_same _ _ _
          · rfl
      | succ i =>
          have hrest := ih (if IsSpace first then store mem p 0 else mem) (p + 1) hi
          rw [Nat.add_assoc, Nat.add_comm 1] at hrest
          rw [wipe, hrest]
          split
          · rfl
          · split
            · exact store_of_ne _ _ (by omega)
            · rfl

/-! ## The two scans -/

theorem gobble_gap {gap rest : List Byte} (hgap : ∀ ch ∈ gap, IsSpace ch)
    (hrest : ∀ ch ∈ rest.head?, ¬ IsSpace ch) {mem : Memory} {p : Nat}
    (h : Holds mem p (gap ++ rest)) {fuel : Nat} (hfuel : gap.length < fuel) :
    gobble fuel mem p = some (wipe mem p gap, p + gap.length) ∧
      Holds (wipe mem p gap) (p + gap.length) rest := by
  induction gap generalizing mem p fuel with
  | nil =>
      obtain ⟨fuel, rfl⟩ := Nat.exists_eq_add_of_le' (show 1 ≤ fuel from hfuel)
      refine ⟨?_, h⟩
      have hstop : (mem p != 0 && isWhitespace (mem p)) = false := by
        cases rest with
        | nil =>
            rw [show mem p = 0 from h]
            rfl
        | cons ch rest =>
            have hch : isWhitespace ch = false := by
              rw [Bool.eq_false_iff, ne_eq, isWhitespace_iff]
              exact hrest ch rfl
            rw [h.1, hch, Bool.and_false]
      rw [gobble, whileLoop, hstop]
      rfl
  | cons ch gap ih =>
      obtain ⟨fuel, rfl⟩ := Nat.exists_eq_add_of_le' (Nat.le_trans (Nat.succ_pos _) hfuel)
      obtain ⟨hch, hne, hafter⟩ := h
      have hspace : IsSpace ch := hgap ch List.mem_cons_self
      have hgo : (mem p != 0 && isWhitespace (mem p)) = true := by
        rw [hch, (isWhitespace_iff ch).mpr hspace, Bool.and_true, bne_iff_ne]
        exact hne
      have hkept : Holds (store mem p 0) (p + 1) (gap ++ rest) :=
        Holds.congr hafter fun a ha => store_of_ne _ _ (by omega)
      obtain ⟨hrun, hleft⟩ := ih (fun ch hch => hgap ch (List.mem_cons_of_mem _ hch)) hkept
        (Nat.lt_of_succ_lt_succ hfuel)
      rw [wipe, if_pos hspace, List.length_cons, Nat.add_comm gap.length, ← Nat.add_assoc]
      refine ⟨?_, hleft⟩
      rw [gobble, whileLoop, hgo, if_pos rfl]
      exact hrun

theorem scan_word {word rest : List Byte} (hword : ∀ ch ∈ word, ¬ IsSpace ch)
    (hrest : ∀ ch ∈ rest.head?, IsSpace ch) {mem : Memory} {p : Nat}
    (h : Holds mem p (word ++ rest)) {fuel : Nat} (hfuel : word.length < fuel) :
    scan fuel mem p = some (p + word.length) := by
  induction word generalizing p fuel with
  | nil =>
      obtain ⟨fuel, rfl⟩ := Nat.exists_eq_add_of_le' (show 1 ≤ fuel from hfuel)
      have hstop : (mem p != 0 && !isWhitespace (mem p)) = false := by
        cases rest with
        | nil =>
            rw [show mem p = 0 from h]
            rfl
        | cons ch rest =>
            rw [h.1, (isWhitespace_iff ch).mpr (hrest ch rfl), Bool.not_true, Bool.and_false]
      rw [scan, whileLoop, hstop]
      rfl
  | cons ch word ih =>
      obtain ⟨fuel, rfl⟩ := Nat.exists_eq_add_of_le' (Nat.le_trans (Nat.succ_pos _) hfuel)
      obtain ⟨hch, hne, hafter⟩ := h
      have hplain : isWhitespace ch = false := by
        rw [Bool.eq_false_iff, ne_eq, isWhitespace_iff]
        exact hword ch List.mem_cons_self
      have hgo : (mem p != 0 && !isWhitespace (mem p)) = true := by
        rw [hch, hplain, Bool.not_false, Bool.and_true, bne_iff_ne]
        exact hne
      have hrun := ih (fun ch hch => hword ch (List.mem_cons_of_mem _ hch)) hafter
        (Nat.lt_of_succ_lt_succ hfuel)
      rw [scan, whileLoop, hgo, if_pos rfl, List.length_cons, Nat.add_comm word.length,
        ← Nat.add_assoc]
      exact hrun

/-! ## All words -/

/-- The pointers of the words are stored from `argc` on, nothing before and
nothing outside the array. -/
structure Points (buf : Nat) (ws : List (Nat × Nat)) (argc : Nat) (argv argv' : Nat → Nat) :
    Prop where
  words : ∀ i (h : i < ws.length), argv' (argc + i) = buf + ws[i].1
  before : ∀ j < argc, argv' j = argv j
  outside : ∀ j, MAXARGS ≤ j → argv' j = argv j

theorem setArg_of_lt (argv : Nat → Nat) {i : Nat} (p : Nat) (h : i < MAXARGS) :
    setArg argv i p = some fun j => if j = i then p else argv j :=
  if_pos h

/-- The first pointer is stored, then those of the rest. -/
theorem Points.cons {buf argc start size : Nat} {ws : List (Nat × Nat)} {argv argv' : Nat → Nat}
    (h : Points buf ws (argc + 1) (fun j => if j = argc then buf + start else argv j) argv')
    (hargc : argc < MAXARGS) : Points buf ((start, size) :: ws) argc argv argv' where
  words i hi := by
    cases i with
    | zero => exact (h.before argc (Nat.lt_succ_self argc)).trans (if_pos rfl)
    | succ i =>
        have hword := h.words i (Nat.lt_of_succ_lt_succ hi)
        rw [Nat.add_assoc, Nat.add_comm 1] at hword
        exact hword
  before j hj := (h.before j (Nat.lt_succ_of_lt hj)).trans (if_neg (Nat.ne_of_lt hj))
  outside j hj := (h.outside j hj).trans (if_neg (Nat.ne_of_gt (Nat.lt_of_lt_of_le hargc hj)))

/-- The loop ends at the NUL with a pointer for every word and all whitespace
overwritten, or in front of the word that is one too many. -/
theorem parseLoop_split {off : Nat} {text : List Byte} {ws : List (Nat × Nat)}
    (hsplit : Split IsSpace off text ws) {buf fuel argc : Nat} {mem : Memory}
    (htext : Holds mem (buf + off) text) (hfuel : text.length < fuel) (argv : Nat → Nat)
    (hargc : argc ≤ MAXARGS - 1) :
    (argc + ws.length ≤ MAXARGS - 1 → ∃ argv', Points buf ws argc argv argv' ∧
      parseLoop fuel mem (buf + off) argc argv =
        some (.args (wipe mem (buf + off) text) (argc + ws.length) argv')) ∧
    (MAXARGS - 1 < argc + ws.length → ∃ front back, text = front ++ back ∧
      parseLoop fuel mem (buf + off) argc argv = some (.tooMany (wipe mem (buf + off) front))) := by
  induction hsplit generalizing fuel argc mem argv with
  | @gap off gap hgap =>
      obtain ⟨rounds, rfl⟩ := Nat.exists_eq_add_of_le' (Nat.le_trans (Nat.succ_pos _) hfuel)
      rw [← List.append_nil gap] at htext
      have hnone : ∀ ch ∈ ([] : List Byte).head?, ¬ IsSpace ch := fun ch hch => nomatch hch
      obtain ⟨hgobble, hend⟩ := gobble_gap hgap hnone htext hfuel
      constructor
      · intro _
        refine ⟨argv, ⟨fun i hi => absurd hi (Nat.not_lt_zero i), fun _ _ => rfl, fun _ _ => rfl⟩, ?_⟩
        rw [parseLoop, hgobble]
        exact if_pos hend
      · intro hmany
        exact absurd hmany (Nat.not_lt.mpr hargc)
  | @word off gap word rest ws hgap hne hword hrest _ ih =>
      obtain ⟨rounds, rfl⟩ := Nat.exists_eq_add_of_le' (show 1 ≤ fuel by omega)
      rw [List.length_append, List.length_append] at hfuel
      obtain ⟨first, others, rfl⟩ := List.exists_cons_of_ne_nil hne
      have hstart : ∀ ch ∈ (first :: others ++ rest).head?, ¬ IsSpace ch := by
        intro ch hch
        obtain rfl := Option.some.inj hch
        exact hword first List.mem_cons_self
      have hgapshort : gap.length < rounds + 1 := by omega
      have hwordshort : (first :: others).length < rounds + 1 := by omega
      have hrestshort : rest.length < rounds := by
        rw [List.length_cons] at hfuel
        omega
      obtain ⟨hgobble, hleft⟩ := gobble_gap hgap hstart htext hgapshort
      rw [Nat.add_assoc buf] at hgobble hleft
      have hopen : wipe mem (buf + off) gap (buf + (off + gap.length)) ≠ 0 := by
        rw [hleft.1]
        exact hleft.2.1
      rcases Nat.lt_or_ge argc (MAXARGS - 1) with hroom | hfull
      · have hslot : argc < MAXARGS := Nat.lt_of_lt_of_le hroom (Nat.sub_le _ _)
        have hset := setArg_of_lt argv (buf + (off + gap.length)) hslot
        have hscan := scan_word hword hrest hleft hwordshort
        have hafter := hleft.append
        rw [Nat.add_assoc buf] at hscan hafter
        have hwipe (front : List Byte) :
            wipe mem (buf + off) (gap ++ (first :: others ++ front)) =
              wipe (wipe mem (buf + off) gap)
                (buf + (off + gap.length + (first :: others).length)) front := by
          rw [wipe_append, wipe_append, wipe_word _ _ hword, Nat.add_assoc buf,
            Nat.add_assoc buf]
        have hloop : parseLoop (rounds + 1) mem (buf + off) argc argv =
            parseLoop rounds (wipe mem (buf + off) gap)
              (buf + (off + gap.length + (first :: others).length)) (argc + 1)
              (fun j => if j = argc then buf + (off + gap.length) else argv j) := by
          rw [parseLoop, hgobble]
          simp only [Option.bind_eq_bind, Option.bind_some, if_neg hopen,
            if_neg (Nat.ne_of_lt hroom), hset, hscan]
        obtain ⟨hargs, hmany⟩ := ih hafter hrestshort
          (fun j => if j = argc then buf + (off + gap.length) else argv j) hroom
        rw [hloop, List.length_cons, ← Nat.add_assoc, Nat.add_right_comm]
        constructor
        · intro hcount
          obtain ⟨argv', hpoints, hrun⟩ := hargs hcount
          exact ⟨argv', hpoints.cons hslot, by rw [hrun, hwipe]⟩
        · intro hcount
          obtain ⟨front, back, rfl, hrun⟩ := hmany hcount
          refine ⟨gap ++ (first :: others ++ front), back, ?_, by rw [hrun, hwipe]⟩
          simp only [List.append_assoc]
      · constructor
        · intro hcount
          rw [List.length_cons] at hcount
          omega
        · intro _
          refine ⟨gap, first :: others ++ rest, rfl, ?_⟩
          rw [parseLoop, hgobble]
          simp only [Option.bind_eq_bind, Option.bind_some, if_neg hopen,
            if_pos (Nat.le_antisymm hargc hfull)]
          rfl

/-! ## The words in place -/

theorem Holds.nulFree {mem : Memory} {p : Nat} {text : List Byte} (h : Holds mem p text) :
    0 ∉ text := by
  induction text generalizing p with
  | nil => exact List.not_mem_nil
  | cons ch text ih =>
      rw [List.mem_cons, not_or]
      exact ⟨fun hzero => h.2.1 hzero.symm, ih h.2.2⟩

/-- Only whitespace in front of the terminator is overwritten. -/
def Overwrites (mem mem' : Memory) (buf : Nat) (text : List Byte) : Prop :=
  ∀ a, mem' a ≠ mem a → ∃ i ch, a = buf + i ∧ text[i]? = some ch ∧ IsSpace ch

theorem wipe_overwrites (mem : Memory) (buf : Nat) (front back : List Byte) :
    Overwrites mem (wipe mem buf front) buf (front ++ back) := by
  intro a ha
  rcases Nat.lt_or_ge a buf with hlow | hhigh
  · exact absurd (wipe_before mem front hlow) ha
  · obtain ⟨i, rfl⟩ := Nat.exists_eq_add_of_le hhigh
    rcases Nat.lt_or_ge i front.length with hin | hout
    · have hi : front[i]? = some front[i] := List.getElem?_eq_getElem hin
      rw [wipe_at mem buf hi] at ha
      refine ⟨i, front[i], rfl, ?_, ?_⟩
      · rw [List.getElem?_append_left hin, hi]
      · by_contra hplain
        exact ha (if_neg hplain)
    · exact absurd (wipe_behind mem front (Nat.add_le_add_left hout buf)) ha

/-- The characters of a word. -/
def wordText (text : List Byte) (w : Nat × Nat) : List Byte := (text.drop w.1).take w.2

section InPlace

variable {mem : Memory} {buf : Nat} {text : List Byte} {w : Nat × Nat}

theorem word_unchanged (hw : IsWord IsSpace text w.1 w.2) {i : Nat} (hi : i < w.2) :
    wipe mem buf text (buf + w.1 + i) = mem (buf + w.1 + i) := by
  obtain ⟨ch, hch, hplain⟩ := hw.inside (w.1 + i) (Nat.le_add_right _ _) (Nat.add_lt_add_left hi _)
  rw [Nat.add_assoc, wipe_at mem buf hch, if_neg hplain]

theorem word_end_le (hw : IsWord IsSpace text w.1 w.2) : w.1 + w.2 ≤ text.length := by
  have hpos := hw.nonempty
  obtain ⟨ch, hch, _⟩ := hw.inside (w.1 + w.2 - 1) (by omega) (by omega)
  have hlast := (List.getElem?_eq_some_iff.mp hch).1
  omega

/-- The byte behind a word is whitespace or the terminator. -/
theorem word_terminated (htext : Holds mem buf text) (hw : IsWord IsSpace text w.1 w.2) :
    wipe mem buf text (buf + w.1 + w.2) = 0 := by
  rw [Nat.add_assoc]
  rcases Nat.lt_or_eq_of_le (word_end_le hw) with hin | hend
  · have hch := List.getElem?_eq_getElem hin
    rw [wipe_at mem buf hch, if_pos (hw.right _ hch)]
  · rw [hend, wipe_behind mem text (Nat.le_refl _)]
    exact htext.nul

/-- The string a word's pointer points to is the word. -/
theorem word_string (htext : Holds mem buf text) (hw : IsWord IsSpace text w.1 w.2) {fuel : Nat}
    (hfuel : text.length < fuel) :
    ∃ rest, stringAt fuel (wipe mem buf text) (buf + w.1) = wordText text w ++ 0 :: rest := by
  have hend := word_end_le hw
  have hsize : (wordText text w).length = w.2 := by
    rw [wordText, List.length_take, List.length_drop]
    omega
  have hread : ∀ i (h : i < (wordText text w).length),
      wipe mem buf text (buf + w.1 + i) = (wordText text w)[i] := by
    intro i hi
    rw [hsize] at hi
    have hin : w.1 + i < text.length := by omega
    rw [word_unchanged hw hi, Nat.add_assoc, htext.at (List.getElem?_eq_getElem hin)]
    simp only [wordText, List.getElem_take, List.getElem_drop]
  have hnul : wipe mem buf text (buf + w.1 + (wordText text w).length) = 0 := by
    rw [hsize]
    exact word_terminated htext hw
  obtain ⟨hfront, hback⟩ := readBytes_text (show (wordText text w).length < fuel by omega) hread hnul
  rw [hback] at hfront
  exact ⟨_, hfront⟩

end InPlace

/-! ## Running a command line -/

/-- What a command finds in `argv`: pointers to the words, each NUL-terminated
in place with its bytes unchanged, and a null pointer behind them. -/
structure Arguments (mem mem' : Memory) (buf : Nat) (ws : List (Nat × Nat))
    (stack argv : Nat → Nat) : Prop where
  points : ∀ i (h : i < ws.length), argv i = buf + ws[i].1
  unchanged : ∀ w ∈ ws, ∀ i < w.2, mem' (buf + w.1 + i) = mem (buf + w.1 + i)
  terminated : ∀ w ∈ ws, mem' (buf + w.1 + w.2) = 0
  closed : argv ws.length = 0
  outside : ∀ j, MAXARGS ≤ j → argv j = stack j

section Run

variable {τ : Type}

/-- What `runcmd` does with a text of the words `ws`.  It leaves the memory
`mem'`, or calls a command with it. -/
inductive Outcome (commands : List (Command τ)) (buf : Nat) (text : List Byte)
    (ws : List (Nat × Nat)) (tf : τ) (stack : Nat → Nat) (s : Machine) (mem' : Memory) :
    Option (Int × Machine) → Prop where
  | tooMany {r : Int × Console} (hmany : MAXARGS - 1 < ws.length)
      (hprints : cprintf (cstr (bytes "Too many arguments (max %d)" ++ [10]))
        [.int (BitVec.ofNat 32 MAXARGS)] s.console = some r) :
      Outcome commands buf text ws tf stack s mem' (some (0, ⟨mem', r.2⟩))
  | blank (hnone : ws = []) :
      Outcome commands buf text ws tf stack s mem' (some (0, ⟨mem', s.console⟩))
  | unknown {first : Nat × Nat} {others : List (Nat × Nat)} {rest : List Byte} {r : Int × Console}
      (hws : ws = first :: others) (hfew : ws.length ≤ MAXARGS - 1)
      (hunknown : ∀ command ∈ commands, command.name ≠ wordText text first)
      (hprints : cprintf (cstr (bytes "Unknown command '%s'" ++ [10]))
        [.ptr (BitVec.ofNat 32 (buf + first.1)) (wordText text first ++ 0 :: rest)] s.console =
          some r) :
      Outcome commands buf text ws tf stack s mem' (some (0, ⟨mem', r.2⟩))
  | runs {first : Nat × Nat} {others : List (Nat × Nat)} {before after : List (Command τ)}
      {command : Command τ} {argv : Nat → Nat}
      (hws : ws = first :: others) (hfew : ws.length ≤ MAXARGS - 1)
      (htable : commands = before ++ command :: after)
      (hbefore : ∀ other ∈ before, other.name ≠ wordText text first)
      (hname : command.name = wordText text first)
      (hargs : Arguments s.mem mem' buf ws stack argv) :
      Outcome commands buf text ws tf stack s mem'
        (command.func ws.length argv tf ⟨mem', s.console⟩)

theorem strcmp_name {word : List Byte} (hword : 0 ∉ word) (rest : List Byte) (command : Command τ) :
    ∃ z, strcmp (word ++ 0 :: rest) (cstr command.name) = some z ∧
      (z = 0 ↔ command.name = word) := by
  obtain ⟨z, hz, htells⟩ := strcmp_tells hword command.nulFree rest []
  exact ⟨z, hz, by rw [htells.zero, unsigned_inj, eq_comm]⟩

/-- The first entry with the name is invoked; without one the loop falls through. -/
theorem invoke_cases {fuel argc : Nat} {argv : Nat → Nat} {tf : τ} {s : Machine}
    {word rest : List Byte} (hword : 0 ∉ word)
    (hstring : stringAt fuel s.mem (argv 0) = word ++ 0 :: rest) (table : List (Command τ)) :
    (∃ before command after, table = before ++ command :: after ∧
      (∀ other ∈ before, other.name ≠ word) ∧ command.name = word ∧
      invoke fuel argc argv tf s table = command.func argc argv tf s) ∨
    ((∀ command ∈ table, command.name ≠ word) ∧
      invoke fuel argc argv tf s table = invoke fuel argc argv tf s []) := by
  induction table with
  | nil => exact .inr ⟨fun command h => (nomatch h), rfl⟩
  | cons command table ih =>
      obtain ⟨z, hz, hzero⟩ := strcmp_name hword rest command
      have hround : invoke fuel argc argv tf s (command :: table) =
          if z = 0 then command.func argc argv tf s else invoke fuel argc argv tf s table := by
        rw [invoke, hstring, hz]
        rfl
      by_cases hname : command.name = word
      · left
        refine ⟨[], command, table, rfl, fun other h => (nomatch h), hname, ?_⟩
        rw [hround, if_pos (hzero.mpr hname)]
      · have hskip : invoke fuel argc argv tf s (command :: table) =
            invoke fuel argc argv tf s table := by
          rw [hround, if_neg fun h => hname (hzero.mp h)]
        rcases ih with ⟨before, found, after, rfl, hbefore, hfound, hrun⟩ | ⟨hnone, hrun⟩
        · left
          refine ⟨command :: before, found, after, rfl, ?_, hfound, by rw [hskip, hrun]⟩
          exact List.forall_mem_cons.mpr ⟨hname, hbefore⟩
        · right
          exact ⟨List.forall_mem_cons.mpr ⟨hname, hnone⟩, by rw [hskip, hrun]⟩

/-- After the last word the null pointer is stored. -/
theorem Points.arguments {mem : Memory} {buf : Nat} {text : List Byte} {ws : List (Nat × Nat)}
    {p : Nat} {stack argv : Nat → Nat}
    (h : Points buf ws 0 (fun j => if j = 0 then p else stack j) argv)
    (htext : Holds mem buf text) (hwords : WordsOf IsSpace text ws) (hslot : ws.length < MAXARGS) :
    Arguments mem (wipe mem buf text) buf ws stack
      (fun j => if j = ws.length then 0 else argv j) where
  points i hi := by
    have hword := h.words i hi
    rw [Nat.zero_add] at hword
    rw [if_neg (Nat.ne_of_lt hi), hword]
  unchanged w hw i hi := word_unchanged ((hwords.words w).mp hw) hi
  terminated w hw := word_terminated htext ((hwords.words w).mp hw)
  closed := if_pos rfl
  outside j hj := by
    have hbehind : ws.length < j := Nat.lt_of_lt_of_le hslot hj
    have hpos : j ≠ 0 := Nat.ne_zero_of_lt hbehind
    rw [if_neg (Nat.ne_of_gt hbehind), h.outside j hj, if_neg hpos]

/-- The lookup ends in the outcome for a first word. -/
theorem invoke_outcome (commands : List (Command τ)) {buf fuel : Nat} {text : List Byte}
    {first : Nat × Nat} {others : List (Nat × Nat)} {stack argv : Nat → Nat} {s : Machine} (tf : τ)
    (htext : Holds s.mem buf text) (hfuel : text.length < fuel)
    (hwords : WordsOf IsSpace text (first :: others))
    (hfew : (first :: others).length ≤ MAXARGS - 1)
    (hargs : Arguments s.mem (wipe s.mem buf text) buf (first :: others) stack argv) :
    Outcome commands buf text (first :: others) tf stack s (wipe s.mem buf text)
      (invoke fuel (first :: others).length argv tf ⟨wipe s.mem buf text, s.console⟩ commands) := by
  have hfirst : IsWord IsSpace text first.1 first.2 := (hwords.words first).mp List.mem_cons_self
  obtain ⟨rest, hstring⟩ := word_string htext hfirst hfuel
  have hpointer : argv 0 = buf + first.1 := hargs.points 0 (Nat.succ_pos _)
  rw [← hpointer] at hstring
  have hplain : 0 ∉ wordText text first := fun h =>
    htext.nulFree (List.mem_of_mem_drop (List.mem_of_mem_take h))
  rcases invoke_cases (s := ⟨wipe s.mem buf text, s.console⟩) hplain hstring commands with
    ⟨before, command, after, htable, hbefore, hname, hrun⟩ | ⟨hunknown, hrun⟩
  · rw [hrun]
    exact .runs rfl hfew htable hbefore hname hargs
  · have htake : takeArgs hasMagnitude (parse (bytes "Unknown command '%s'" ++ [10]))
        [.ptr (BitVec.ofNat 32 (buf + first.1)) (wordText text first ++ 0 :: rest)] = some [] :=
      takeArgs_string _ (List.mem_append_right _ List.mem_cons_self) _ _
    obtain ⟨r, hprints⟩ := cprintf_returns (by decide) htake s.console
    have hcomplaint : invoke fuel (first :: others).length argv tf
        ⟨wipe s.mem buf text, s.console⟩ [] = some (0, ⟨wipe s.mem buf text, r.2⟩) := by
      simp only [invoke, hstring]
      rw [hpointer, hprints]
      rfl
    rw [hrun, hcomplaint]
    exact .unknown rfl hfew hunknown hprints

/-- A command line is cut into its words in place, and the command its first
word names is called with them; nothing but whitespace in front of the
terminator is overwritten. -/
theorem runcmd_words (commands : List (Command τ)) {buf : Nat} {text : List Byte} {s : Machine}
    (htext : Holds s.mem buf text) {fuel : Nat} (hfuel : text.length < fuel) (tf : τ)
    (stack : Nat → Nat) :
    ∃ ws mem', WordsOf IsSpace text ws ∧ Overwrites s.mem mem' buf text ∧
      Outcome commands buf text ws tf stack s mem' (runcmdWith commands fuel buf tf stack s) := by
  obtain ⟨ws, hsplit⟩ := exists_split IsSpace 0 text
  have hwords := hsplit.wordsOf
  have hstack := setArg_of_lt stack 0 (show 0 < MAXARGS by decide)
  obtain ⟨hargs, hmany⟩ := parseLoop_split hsplit htext hfuel
    (fun j => if j = 0 then 0 else stack j) (Nat.zero_le _)
  rw [Nat.zero_add, Nat.add_zero] at hargs hmany
  rcases Nat.lt_or_ge (MAXARGS - 1) ws.length with hover | hfew
  · obtain ⟨front, back, rfl, hparse⟩ := hmany hover
    have htake : takeArgs hasMagnitude (parse (bytes "Too many arguments (max %d)" ++ [10]))
        [.int (BitVec.ofNat 32 MAXARGS)] = some [] := by decide
    obtain ⟨r, hprints⟩ := cprintf_returns (by decide) htake s.console
    have hrun : runcmdWith commands fuel buf tf stack s =
        some (0, ⟨wipe s.mem buf front, r.2⟩) := by
      simp only [runcmdWith, hstack, hparse, hprints, Option.bind_eq_bind, Option.bind_some,
        Option.pure_def]
    refine ⟨ws, wipe s.mem buf front, hwords, wipe_overwrites _ _ _ _, ?_⟩
    rw [hrun]
    exact .tooMany hover hprints
  · obtain ⟨argv, hpoints, hparse⟩ := hargs hfew
    have hslot : ws.length < MAXARGS := Nat.lt_of_le_of_lt hfew (by decide)
    have hlast := setArg_of_lt argv 0 hslot
    have hrun : runcmdWith commands fuel buf tf stack s =
        if ws.length = 0 then some (0, ⟨wipe s.mem buf text, s.console⟩)
        else invoke fuel ws.length (fun j => if j = ws.length then 0 else argv j) tf
          ⟨wipe s.mem buf text, s.console⟩ commands := by
      simp only [runcmdWith, hstack, hparse, hlast, Option.bind_eq_bind, Option.bind_some,
        Option.pure_def]
    have hwiped := wipe_overwrites s.mem buf text []
    rw [List.append_nil] at hwiped
    refine ⟨ws, wipe s.mem buf text, hwords, hwiped, ?_⟩
    rw [hrun]
    cases ws with
    | nil => exact .blank rfl
    | cons first others =>
        exact invoke_outcome commands tf htext hfuel hwords hfew
          (hpoints.arguments htext hwords hslot)

/-- Where a kernel may be linked. -/
def linked : Symbols := ⟨0x0010000C, 0xF010000C, 0xF0101A00, 0xF0112300, 0xF0112944⟩

/-- A buffer with a gap in front, a separator and a line end. -/
def helpLine : List Byte := ascii ' ' :: bytes "help" ++ 9 :: bytes "me" ++ [10]

/-- The memory with the buffer at address 80. -/
def lineMemory : Memory := fun a => helpLine.getD (a - 80) 0

theorem runcmd_words_help :
    ∃ ws mem', WordsOf IsSpace helpLine ws ∧ Overwrites lineMemory mem' 80 helpLine ∧
      Outcome (commands Unit linked) 80 helpLine ws () (fun _ => 0) ⟨lineMemory, idle⟩ mem'
        (runcmd linked 80 80 () (fun _ => 0) ⟨lineMemory, idle⟩) := by
  have htext : Holds lineMemory 80 helpLine := by decide
  exact runcmd_words (s := ⟨lineMemory, idle⟩) (commands Unit linked) htext (by decide) () _

end Run

end JOSKernel.Kern.CommandLine
