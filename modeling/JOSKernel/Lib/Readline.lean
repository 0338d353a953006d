import JOSKernel.Kern.Printf
import JOSKernel.Lib.FormatText

/-!
# The line editor (`lib/readline.c`)

`readline` keeps a line in a buffer and echoes every edit of it on the
console.  What stands on the screen before the cursor is always the prompt and
the line in the buffer, however far the screen has scrolled.
-/

namespace JOSKernel.Lib.Readline

open JOSKernel.General.MachineInt
open JOSKernel.General.Display
open JOSKernel.Kern.ConsoleOutput
open JOSKernel.Kern.Printf
open JOSKernel.Lib.FormatText
open JOSKernel.Lib.Printfmt
open JOSKernel.Lib.StringRoutines

def BUFLEN : Nat := 1024

/-- The locals of `readline`, its buffer and the console. -/
structure Editor where
  console : Console
  buf : Nat → Byte
  i : Nat

/-- How `readline` returns: NULL, or the buffer. -/
inductive Return where
  | null | buf
deriving DecidableEq

def iscons : Bool := true

/-- `if (echoing) cputchar(c)` -/
def echo (c : Word) (st : Console) : Console := if iscons then cputchar c st else st

def store (buf : Nat → Byte) (i : Nat) (c : Byte) : Nat → Byte :=
  fun j => if j = i then c else buf j

/-- The body of the loop, on the character `c` that `getchar` returned. -/
def readKey (c : Word) (e : Editor) : Option (Editor × Option Return) :=
  if c.toInt < 0 then do
    let (_, st) ← cprintf (cstr (bytes "read error: %e" ++ [10])) [.int c] e.console
    return ({ e with console := st }, some .null)
  else if (c = 0x08 ∨ c = 0x7F) ∧ e.i > 0 then
    some ({ e with console := echo 0x08 e.console, i := e.i - 1 }, none)
  else if c.toInt ≥ 0x20 ∧ e.i < BUFLEN - 1 then
    some ({ console := echo c e.console, buf := store e.buf e.i (c.setWidth 8), i := e.i + 1 },
      none)
  else if c = 0x0A ∨ c = 0x0D then
    some ({ e with console := echo 0x0A e.console, buf := store e.buf e.i 0 }, some .buf)
  else some (e, none)

/-- The loop on the characters that `getchar` returns.  Without a return value
it is waiting for the next one. -/
def readKeys : List Word → Editor → Option (Editor × Option Return)
  | [], e => some (e, none)
  | c :: keys, e => do
      let (e, result) ← readKey c e
      match result with
      | none => readKeys keys e
      | some _ => some (e, result)

/-- The prompt is a pointer and the string it points to. -/
def readline (p : Word) (prompt : List Byte) (keys : List Word) (st : Console)
    (buf : Nat → Byte) : Option (Editor × Option Return) := do
  let st ← if p ≠ 0 then (cprintf (cstr (bytes "%s")) [.ptr p prompt] st).map Prod.snd
    else some st
  readKeys keys ⟨st, buf, 0⟩

/-! ## Text on the screen -/

/-- A character with the default attribute. -/
def cell (b : Byte) : BitVec 16 := 0x0700 ||| b.setWidth 16

/-- The line typed so far. -/
def Editor.line (e : Editor) : List Byte := (List.range e.i).map e.buf

theorem logPutc_printable {b : Byte} (hb : 0x20 ≤ b.toNat) (lg : Log) :
    logPutc (ofUChar b) lg = lg.put (cell b) := by
  have hordinary : attributed (ofUChar b) &&& 0xFF ≠ 0x08 ∧ attributed (ofUChar b) &&& 0xFF ≠ 0x0A ∧
      attributed (ofUChar b) &&& 0xFF ≠ 0x0D ∧ attributed (ofUChar b) &&& 0xFF ≠ 0x09 ∧
      (attributed (ofUChar b)).setWidth 16 = cell b := by
    revert b
    decide
  obtain ⟨hback, hnewline, hreturn, htab, hcell⟩ := hordinary
  rw [logPutc, logCharacter, if_neg hback, if_neg hnewline, if_neg hreturn, if_neg htab, hcell]

theorem logPutc_backspace (lg : Log) : logPutc 0x08 lg = lg.backspace blank := rfl

/-- The text and the cursor before it leave at least one row of the window. -/
theorem holds_echo {st : Console} {lg : Log} {text : List Byte} (h : Displays st lg)
    (hholds : lg.Holds (text.map cell)) {b : Byte} (hb : 0x20 ≤ b.toNat)
    (hroom : text.length + 1 ≤ CRT_SIZE - CRT_COLS) :
    ∃ lg', Displays (cputchar (ofUChar b) st) lg' ∧ lg'.Holds ((text ++ [b]).map cell) := by
  have hdraws := (consPutc_draws (ofUChar b) h).displays
  rw [logPutc_printable hb] at hdraws
  have hput := hholds.put (cell b) (by rw [List.length_map]; exact hroom)
  rw [List.map_append, List.map_singleton]
  exact ⟨_, hdraws, hput⟩

theorem holds_erase {st : Console} {lg : Log} {text : List Byte} {last : Byte} (h : Displays st lg)
    (hholds : lg.Holds ((text ++ [last]).map cell)) :
    ∃ lg', Displays (cputchar 0x08 st) lg' ∧ lg'.Holds (text.map cell) := by
  have hdraws := (consPutc_draws 0x08 h).displays
  rw [logPutc_backspace] at hdraws
  rw [List.map_append, List.map_singleton] at hholds
  exact ⟨_, hdraws, hholds.backspace blank⟩

/-! ## The prompt -/

/-- A printable character is one that the editor echoes as it is. -/
def Printable (b : Byte) : Prop := 0x20 ≤ b.toNat ∧ b.toNat ≤ 0x7E

/-- Printing further text behind the text on the screen. -/
theorem holds_print (text : List Byte) (hprintable : ∀ b ∈ text, Printable b) {st : Console}
    {lg : Log} {seen : List Byte} (h : Displays st lg) (hholds : lg.Holds (seen.map cell))
    (hroom : seen.length + text.length ≤ CRT_SIZE - CRT_COLS) :
    ∃ lg', Displays (feed cputchar (text.map ofChar) st) lg' ∧
      lg'.Holds ((seen ++ text).map cell) := by
  induction text generalizing st lg seen with
  | nil =>
      rw [List.append_nil]
      exact ⟨lg, h, hholds⟩
  | cons b text ih =>
      obtain ⟨hlow, hhigh⟩ := hprintable b List.mem_cons_self
      rw [List.length_cons] at hroom
      obtain ⟨lg', hdisplays, htext⟩ := holds_echo h hholds hlow (by omega)
      have hrest := ih (fun b hb => hprintable b (List.mem_cons_of_mem _ hb)) hdisplays htext
        (by rw [List.length_append, List.length_singleton]; omega)
      rw [List.append_assoc, List.singleton_append] at hrest
      rw [List.map_cons, feed_cons, ofChar_eq_ofUChar (by omega)]
      exact hrest

/-! ## One key -/

/-- The state between two keys: the line fits the buffer, and the prompt and
the line stand before the cursor. -/
def Editing (prompt : List Byte) (e : Editor) : Prop :=
  e.i ≤ BUFLEN - 1 ∧ ∃ lg, Displays e.console lg ∧ lg.Holds ((prompt ++ e.line).map cell)

theorem Editor.line_length (e : Editor) : e.line.length = e.i := by
  simp [Editor.line]

theorem line_store (buf : Nat → Byte) (i : Nat) (c : Byte) :
    (List.range i).map (store buf i c) = (List.range i).map buf := by
  apply List.map_congr_left
  intro j hj
  rw [store, if_neg (Nat.ne_of_lt (List.mem_range.mp hj))]

/-- An inserted character ends the line. -/
theorem line_insert (e : Editor) (console : Console) (c : Byte) :
    Editor.line ⟨console, store e.buf e.i c, e.i + 1⟩ = e.line ++ [c] := by
  rw [Editor.line, Editor.line, List.range_succ, List.map_append, line_store]
  simp [store]

/-- The last character of a line can be taken off. -/
theorem line_erase {e : Editor} (hi : e.i > 0) :
    e.line = Editor.line { e with i := e.i - 1 } ++ [e.buf (e.i - 1)] := by
  have hsucc : e.i = e.i - 1 + 1 := by omega
  rw [Editor.line, hsucc, List.range_succ, List.map_append]
  rfl

/-- The line has been ended by a NUL and is otherwise as it was before. -/
structure Ended (e e' : Editor) : Prop where
  line_eq : e'.line = e.line
  nul : e'.buf e'.i = 0
  i_le : e'.i ≤ BUFLEN - 1

theorem readKey_editing {prompt : List Byte} (hprompt : prompt.length ≤ 800) {c : Word}
    (hlow : 1 ≤ c.toNat) (hhigh : c.toNat ≤ 255) {e : Editor} (h : Editing prompt e) :
    ∃ e' result, readKey c e = some (e', result) ∧
      (result = none ∧ Editing prompt e' ∨
        result = some .buf ∧ (c = 0x0A ∨ c = 0x0D) ∧ Ended e e') := by
  obtain ⟨hi, lg, hdisplays, hholds⟩ := h
  have hline := e.line_length
  have hsize : CRT_SIZE - CRT_COLS = 1920 := rfl
  have hbuflen : BUFLEN = 1024 := rfl
  have hint : c.toInt = c.toNat := BitVec.toInt_eq_toNat_of_lt (by simp only [Nat.reducePow]; omega)
  rw [readKey, if_neg (by omega)]
  by_cases herase : (c = 0x08 ∨ c = 0x7F) ∧ e.i > 0
  · rw [if_pos herase]
    refine ⟨_, none, rfl, Or.inl ⟨rfl, by dsimp only; omega, ?_⟩⟩
    rw [line_erase herase.2, ← List.append_assoc] at hholds
    exact holds_erase hdisplays hholds
  · rw [if_neg herase]
    by_cases hinsert : c.toInt ≥ 0x20 ∧ e.i < BUFLEN - 1
    · rw [if_pos hinsert]
      refine ⟨_, none, rfl, Or.inl ⟨rfl, by dsimp only; omega, ?_⟩⟩
      have hchar : ofUChar (c.setWidth 8) = c := by
        apply BitVec.eq_of_toNat_eq
        simp only [ofUChar, BitVec.toNat_setWidth, Nat.reducePow]
        omega
      have hshown : 0x20 ≤ (c.setWidth 8).toNat := by
        simp only [BitVec.toNat_setWidth, Nat.reducePow]
        omega
      have hecho := holds_echo hdisplays hholds hshown (by rw [List.length_append]; omega)
      rw [hchar, List.append_assoc] at hecho
      rw [line_insert]
      exact hecho
    · rw [if_neg hinsert]
      by_cases henter : c = 0x0A ∨ c = 0x0D
      · rw [if_pos henter]
        refine ⟨_, some .buf, rfl, Or.inr ⟨rfl, henter, ?_⟩⟩
        exact ⟨line_store _ _ _, if_pos rfl, hi⟩
      · rw [if_neg henter]
        exact ⟨e, none, rfl, Or.inl ⟨rfl, hi, lg, hdisplays, hholds⟩⟩

/-! ## Whole runs -/

theorem readKeys_more {c : Word} {e e' : Editor} (hkey : readKey c e = some (e', none))
    (keys : List Word) : readKeys (c :: keys) e = readKeys keys e' := by
  rw [readKeys, hkey]
  rfl

theorem readKeys_return {c : Word} {e e' : Editor} {result : Return}
    (hkey : readKey c e = some (e', some result)) (keys : List Word) :
    readKeys (c :: keys) e = some (e', some result) := by
  rw [readKeys, hkey]
  rfl

/-- Where a run of the loop stands: still editing, or returned at the first
key that ends the line. -/
def RunResult (prompt : List Byte) (keys : List Word) (e e' : Editor) : Option Return → Prop
  | none => Editing prompt e'
  | some .buf => ∃ before c after e₀, keys = before ++ c :: after ∧ (c = 0x0A ∨ c = 0x0D) ∧
      readKeys before e = some (e₀, none) ∧ Editing prompt e₀ ∧ Ended e₀ e'
  | some .null => False

theorem readKeys_editing {prompt : List Byte} (hprompt : prompt.length ≤ 800) (keys : List Word)
    (hkeys : ∀ c ∈ keys, 1 ≤ c.toNat ∧ c.toNat ≤ 255) {e : Editor} (h : Editing prompt e) :
    ∃ e' result, readKeys keys e = some (e', result) ∧ RunResult prompt keys e e' result := by
  induction keys generalizing e with
  | nil => exact ⟨e, none, rfl, h⟩
  | cons c keys ih =>
      obtain ⟨hlow, hhigh⟩ := hkeys c List.mem_cons_self
      obtain ⟨e₁, result, hkey, hresult⟩ := readKey_editing hprompt hlow hhigh h
      rcases hresult with ⟨rfl, hediting⟩ | ⟨rfl, henter, hended⟩
      · obtain ⟨e', result, hrun, hresult⟩ :=
          ih (fun c hc => hkeys c (List.mem_cons_of_mem _ hc)) hediting
        refine ⟨e', result, (readKeys_more hkey keys).trans hrun, ?_⟩
        cases result with
        | none => exact hresult
        | some returned =>
            cases returned with
            | null => exact hresult
            | buf =>
                obtain ⟨before, c', after, e₀, hsplit, henter, hbefore, hrest⟩ := hresult
                refine ⟨c :: before, c', after, e₀, by rw [hsplit, List.cons_append], henter, ?_,
                  hrest⟩
                exact (readKeys_more hkey before).trans hbefore
      · exact ⟨e₁, some .buf, readKeys_return hkey keys, [], c, keys, e, rfl, henter, rfl, h, hended⟩

/-- The screen cells right before the cursor hold `text` with the default
attribute. -/
def OnScreen (st : Console) (text : List Byte) : Prop :=
  text.length ≤ st.crtPos ∧
    ∀ j (hj : j < text.length), st.screen (st.crtPos - text.length + j) = cell text[j]

theorem Editing.onScreen {prompt : List Byte} {e : Editor} (h : Editing prompt e) :
    OnScreen e.console (prompt ++ e.line) := by
  obtain ⟨_, lg, hdisplays, hholds⟩ := h
  obtain ⟨hfits, hcells⟩ := hholds.on_screen hdisplays
  have hlength : ((prompt ++ e.line).map cell).length = (prompt ++ e.line).length :=
    List.length_map cell
  constructor
  · rw [← hlength]
    exact hfits
  · intro j hj
    rw [← hlength, hcells j (by rw [hlength]; exact hj), List.getElem_map]

/-- The prompt has been printed and the line is empty. -/
theorem editing_start {p : Word} (hp : p ≠ 0) {prompt : List Byte}
    (hprintable : ∀ b ∈ prompt, Printable b) (hprompt : prompt.length ≤ 800) {st : Console}
    (hpos : st.crtPos < CRT_SIZE) (buf : Nat → Byte) :
    ∃ e, Editing prompt e ∧
      ∀ keys, readline p (cstr prompt) keys st buf = readKeys keys e := by
  have hnul : 0 ∉ prompt := by
    intro hmem
    exact absurd (hprintable 0 hmem).1 (by decide)
  have hstream : stream (cstr (bytes "%s")) [.ptr p (cstr prompt)] = some ([], prompt.map ofChar) :=
    (Prints.string hp hnul (by omega) []).stream_eq
  have hsize : CRT_SIZE - CRT_COLS = 1920 := rfl
  have hstart : Displays st (st.log hpos) :=
    RowLog.shown_start st.screen st.crtPos (show st.crtPos < crt.size from hpos)
  obtain ⟨lg, hdisplays, hholds⟩ := holds_print prompt hprintable hstart
    (show (st.log hpos).Holds (([] : List Byte).map cell) from RowLog.holds_nil _)
    (by rw [List.length_nil]; omega)
  refine ⟨⟨feed cputchar (prompt.map ofChar) st, buf, 0⟩, ⟨Nat.zero_le _, lg, hdisplays, ?_⟩, ?_⟩
  · have hline : Editor.line ⟨feed cputchar (prompt.map ofChar) st, buf, 0⟩ = [] := rfl
    rw [hline, List.append_nil]
    exact hholds
  · intro keys
    rw [readline, if_pos hp, cprintf_eq hstream]
    rfl

/-- At every point of a run, until the key that ends the line, the screen shows
the prompt and exactly the line in the buffer; the returned buffer holds that
line and a NUL. -/
theorem readline_shows_line {p : Word} (hp : p ≠ 0) {prompt : List Byte}
    (hprintable : ∀ b ∈ prompt, Printable b) (hprompt : prompt.length ≤ 800) {st : Console}
    (hpos : st.crtPos < CRT_SIZE) (buf : Nat → Byte) (keys : List Word)
    (hkeys : ∀ c ∈ keys, 1 ≤ c.toNat ∧ c.toNat ≤ 255) :
    ∃ e result, readline p (cstr prompt) keys st buf = some (e, result) ∧
      e.i ≤ BUFLEN - 1 ∧
      (result = none → OnScreen e.console (prompt ++ e.line)) ∧
      (result ≠ none → result = some .buf ∧ e.buf e.i = 0 ∧
        ∃ before c after e₀, keys = before ++ c :: after ∧ (c = 0x0A ∨ c = 0x0D) ∧
          readline p (cstr prompt) before st buf = some (e₀, none) ∧
          OnScreen e₀.console (prompt ++ e₀.line) ∧ e.line = e₀.line) := by
  obtain ⟨e, hediting, hread⟩ := editing_start hp hprintable hprompt hpos buf
  obtain ⟨e', result, hrun, hresult⟩ := readKeys_editing hprompt keys hkeys hediting
  refine ⟨e', result, (hread keys).trans hrun, ?_⟩
  cases result with
  | none => exact ⟨hresult.1, fun _ => hresult.onScreen, fun hne => absurd rfl hne⟩
  | some returned =>
      cases returned with
      | null => exact hresult.elim
      | buf =>
          obtain ⟨before, c, after, e₀, hsplit, henter, hbefore, hediting₀, hended⟩ := hresult
          refine ⟨hended.i_le, fun heq => absurd heq (by decide), fun _ => ⟨rfl, hended.nul, ?_⟩⟩
          exact ⟨before, c, after, e₀, hsplit, henter, (hread before).trans hbefore,
            hediting₀.onScreen, hended.line_eq⟩

/-- The keys `l` and `t`, a backspace and `s`. -/
def slip : List Word := [0x6C, 0x74, 0x08, 0x73]

/-- The prompt `K> ` on a fresh screen, then the line `ls` with a slip that is
erased, before and after the key that ends it. -/
theorem readline_shows_line_ls :
    (∃ e, readline 0xF0100000 (cstr (bytes "K> ")) slip idle (fun _ => 0) = some (e, none) ∧
      e.line = bytes "ls" ∧ OnScreen e.console (bytes "K> ls")) ∧
    ∃ e, readline 0xF0100000 (cstr (bytes "K> ")) (slip ++ [0x0D]) idle (fun _ => 0) =
        some (e, some .buf) ∧
      e.line = bytes "ls" ∧ e.buf e.i = 0 := by
  have hp : (0xF0100000 : Word) ≠ 0 := by decide
  have hprintable : ∀ b ∈ bytes "K> ", Printable b := by
    unfold Printable
    decide
  have hpos : idle.crtPos < CRT_SIZE := by decide
  have hopen : (readline 0xF0100000 (cstr (bytes "K> ")) slip idle (fun _ => 0)).map
      (fun r => (r.1.line, r.2)) = some (bytes "ls", none) := by decide +kernel
  have hended : (readline 0xF0100000 (cstr (bytes "K> ")) (slip ++ [0x0D]) idle
      (fun _ => 0)).map (fun r => (r.1.line, r.2)) = some (bytes "ls", some .buf) := by
    decide +kernel
  obtain ⟨e, result, hrun, _, hscreen, _⟩ := readline_shows_line hp hprintable
    (show 3 ≤ 800 by decide) hpos (fun _ => 0) slip (by simp [slip])
  obtain ⟨e', result', hrun', _, _, hreturned⟩ := readline_shows_line hp hprintable
    (show 3 ≤ 800 by decide) hpos (fun _ => 0) (slip ++ [0x0D]) (by simp [slip])
  rw [hrun, Option.map_some, Option.some.injEq, Prod.mk.injEq] at hopen
  rw [hrun', Option.map_some, Option.some.injEq, Prod.mk.injEq] at hended
  obtain ⟨hline, rfl⟩ := hopen
  obtain ⟨hline', rfl⟩ := hended
  have hscreen := hscreen rfl
  rw [hline] at hscreen
  exact ⟨⟨e, hrun, hline, hscreen⟩, e', hrun', hline', (hreturned nofun).2.1⟩

end JOSKernel.Lib.Readline
