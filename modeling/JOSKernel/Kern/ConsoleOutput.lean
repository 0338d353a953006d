import JOSKernel.General.Display
import JOSKernel.Lib.StringMemory

/-!
# Console output (`kern/console.c`)

A character goes to the serial port, to the parallel port and to the text
display.  `cga_putc` keeps the display in memory and prints a tab by calling
back into `cons_putc`.  The memory it writes always shows the last rows of a
row-wrapped log of everything printed.
-/

namespace JOSKernel.Kern.ConsoleOutput

open JOSKernel.General.MachineInt
open JOSKernel.General.ByteMemory
open JOSKernel.General.Display
open JOSKernel.Lib.StringMemory

/-! ## Devices -/

/-- The display adapter that `cga_init` found. -/
inductive Adapter where
  | cga | mono
deriving DecidableEq

def KERNBASE : Nat := 0xF0000000

def Adapter.addr6845 : Adapter → Nat
  | .cga => 0x3D4
  | .mono => 0x3B4

def Adapter.crtBuf : Adapter → Nat
  | .cga => KERNBASE + 0xB8000
  | .mono => KERNBASE + 0xB0000

/-- The state the output functions touch.  `inbs n port` is what the device at
`port` answers to the `n`-th `inb` from now on, and `outbs` lists the bytes
sent to the devices. -/
structure Console where
  mem : Memory
  inbs : Nat → Nat → Byte
  outbs : List (Nat × Byte)
  adapter : Adapter
  crtPos : Nat

def inb (port : Nat) (st : Console) : Byte × Console :=
  (st.inbs 0 port, { st with inbs := fun n => st.inbs (n + 1) })

def outb (port : Nat) (data : Byte) (st : Console) : Console :=
  { st with outbs := st.outbs ++ [(port, data)] }

def delay (st : Console) : Console :=
  (inb 0x84 (inb 0x84 (inb 0x84 (inb 0x84 st).2).2).2).2

/-- Poll a status register until one of the bits in `mask` is set, with a
delay after each of at most `tries` polls that fail. -/
def waitReady (port : Nat) (mask : Byte) : Nat → Console → Console
  | 0, st => (inb port st).2
  | tries + 1, st =>
      let (status, st) := inb port st
      if status &&& mask ≠ 0 then st else waitReady port mask tries (delay st)

def COM1 : Nat := 0x3F8

def serialPutc (c : Word) (st : Console) : Console :=
  outb COM1 (c.setWidth 8) (waitReady (COM1 + 5) 0x20 12800 st)

def lptPutc (c : Word) (st : Console) : Console :=
  let st := waitReady (0x378 + 1) 0x80 12800 st
  outb (0x378 + 2) 0x08 (outb (0x378 + 2) 0x0D (outb 0x378 (c.setWidth 8) st))

/-! ## Text-mode display output -/

def CRT_ROWS : Nat := 25

def CRT_COLS : Nat := 80

def CRT_SIZE : Nat := CRT_ROWS * CRT_COLS

/-- `0x0700 | ' '` -/
def blank : BitVec 16 := 0x0720

/-- The cell `crt_buf[i]`. -/
def Console.screen (st : Console) (i : Nat) : BitVec 16 := load16 st.mem (st.adapter.crtBuf + 2 * i)

/-- The assignment `crt_buf[i] = v`. -/
def Console.setCell (st : Console) (i : Nat) (v : BitVec 16) : Console :=
  { st with mem := store16 st.mem (st.adapter.crtBuf + 2 * i) v }

/-- If no attribute given, then use black on white. -/
def attributed (c : Word) : Word := if c &&& ~~~0xFF = 0 then c ||| 0x0700 else c

/-- `(c & ~0xff) | ' '` -/
def blanked (c : Word) : Word := (c &&& ~~~0xFF) ||| 0x20

def returnCarriage (st : Console) : Console :=
  { st with crtPos := st.crtPos - st.crtPos % CRT_COLS }

/-- The loop that blanks `count` cells from cell `i` on. -/
def blankCells (crtBuf : Nat) : Nat → Nat → Memory → Memory
  | 0, _, m => m
  | count + 1, i, m => blankCells crtBuf count (i + 1) (store16 m (crtBuf + 2 * i) blank)

/-- The display moves up by a row. -/
def scroll (st : Console) : Console :=
  let buf := st.adapter.crtBuf
  let m := memmove st.mem buf (buf + 2 * CRT_COLS) ((CRT_SIZE - CRT_COLS) * 2)
  { st with
    mem := blankCells buf CRT_COLS (CRT_SIZE - CRT_COLS) m
    crtPos := st.crtPos - CRT_COLS }

/-- Move that little blinky thing. -/
def moveCursor (st : Console) : Console :=
  let base := st.adapter.addr6845
  let high := BitVec.ofNat 8 (st.crtPos / 256)
  let low := BitVec.ofNat 8 st.crtPos
  outb (base + 1) low (outb base 15 (outb (base + 1) high (outb base 14 st)))

/-- What a state must offer for characters to be drawn in it: the console in it and
how that changes, the assignment to a cell, and the scrolling. -/
structure Surface (σ : Type) where
  console : σ → Console
  update : (Console → Console) → σ → σ
  setCell : Nat → BitVec 16 → σ → σ
  scroll : σ → σ

namespace Surface

variable {σ : Type} (surface : Surface σ)

/-- The switch on the character, which has its attribute by now. -/
def putCharacter (consPutc : Word → σ → σ) (c : Word) (s : σ) : σ :=
  if c &&& 0xFF = 0x08 then
    if (surface.console s).crtPos > 0 then
      let s := surface.update (fun st => { st with crtPos := st.crtPos - 1 }) s
      surface.setCell (surface.console s).crtPos ((blanked c).setWidth 16) s
    else s
  else if c &&& 0xFF = 0x0A then
    surface.update
      (fun st => returnCarriage { st with crtPos := (st.crtPos + CRT_COLS) % 65536 }) s
  else if c &&& 0xFF = 0x0D then surface.update returnCarriage s
  else if c &&& 0xFF = 0x09 then
    consPutc 0x20 (consPutc 0x20 (consPutc 0x20 (consPutc 0x20 (consPutc 0x20 s))))
  else
    surface.update (fun st => { st with crtPos := (st.crtPos + 1) % 65536 })
      (surface.setCell (surface.console s).crtPos (c.setWidth 16) s)

def scrollIfFull (s : σ) : σ :=
  if (surface.console s).crtPos ≥ CRT_SIZE then surface.scroll s else s

/-- `cga_putc` with its calls of `cons_putc` made by `consPutc`. -/
def cgaPutcWith (consPutc : Word → σ → σ) (c : Word) (s : σ) : σ :=
  surface.update moveCursor
    (surface.scrollIfFull (surface.putCharacter consPutc (attributed c) s))

def consPutcWith (cgaPutc : Word → σ → σ) (c : Word) (s : σ) : σ :=
  cgaPutc c (surface.update (fun st => lptPutc c (serialPutc c st)) s)

/-- A tab calls back with spaces only, and a space never calls back. -/
def cgaPutc : Word → σ → σ :=
  surface.cgaPutcWith (surface.consPutcWith (surface.cgaPutcWith fun _ s => s))

variable {surface}

theorem putCharacter_tab (consPutc : Word → σ → σ) {c : Word} (hc : c &&& 0xFF = 0x09) (s : σ) :
    surface.putCharacter consPutc c s =
      consPutc 0x20 (consPutc 0x20 (consPutc 0x20 (consPutc 0x20 (consPutc 0x20 s)))) := by
  rw [putCharacter, hc, if_neg (by decide), if_neg (by decide), if_neg (by decide), if_pos rfl]

/-- Only a tab calls back. -/
theorem putCharacter_congr (f g : Word → σ → σ) {c : Word} (h : c &&& 0xFF ≠ 0x09) (s : σ) :
    surface.putCharacter f c s = surface.putCharacter g c s := by
  unfold putCharacter
  rw [if_neg h, if_neg h]

theorem cgaPutcWith_congr (f g : Word → σ → σ) {c : Word} (h : attributed c &&& 0xFF ≠ 0x09)
    (s : σ) : surface.cgaPutcWith f c s = surface.cgaPutcWith g c s := by
  rw [cgaPutcWith, cgaPutcWith, putCharacter_congr f g h]

/-- The console by itself. -/
abbrev plain : Surface Console where
  console st := st
  update f := f
  setCell i v st := st.setCell i v
  scroll := ConsoleOutput.scroll

end Surface

def putCharacter (consPutc : Word → Console → Console) (c : Word) (st : Console) : Console :=
  Surface.plain.putCharacter consPutc c st

def scrollIfFull (st : Console) : Console := Surface.plain.scrollIfFull st

def cgaPutcWith (consPutc : Word → Console → Console) (c : Word) (st : Console) : Console :=
  Surface.plain.cgaPutcWith consPutc c st

def consPutcWith (cgaPutc : Word → Console → Console) (c : Word) (st : Console) : Console :=
  Surface.plain.consPutcWith cgaPutc c st

def cgaPutc : Word → Console → Console := Surface.plain.cgaPutc

def consPutc : Word → Console → Console := consPutcWith cgaPutc

def cputchar (c : Word) (st : Console) : Console := consPutc c st

theorem scrollIfFull_eq (st : Console) :
    scrollIfFull st = if st.crtPos ≥ CRT_SIZE then scroll st else st := rfl

theorem cgaPutcWith_eq (consPutc : Word → Console → Console) (c : Word) (st : Console) :
    cgaPutcWith consPutc c st =
      moveCursor (scrollIfFull (putCharacter consPutc (attributed c) st)) := rfl

theorem consPutcWith_eq (cgaPutc : Word → Console → Console) (c : Word) (st : Console) :
    consPutcWith cgaPutc c st = cgaPutc c (lptPutc c (serialPutc c st)) := rfl

theorem putCharacter_tab (consPutc : Word → Console → Console) {c : Word}
    (hc : c &&& 0xFF = 0x09) (st : Console) :
    putCharacter consPutc c st =
      consPutc 0x20 (consPutc 0x20 (consPutc 0x20 (consPutc 0x20 (consPutc 0x20 st)))) :=
  Surface.putCharacter_tab consPutc hc st

/-- The calls of `cga_putc` and `cons_putc` in each other are calls of the two
functions themselves. -/
theorem cgaPutc_nested (c : Word) (st : Console) : cgaPutc c st = cgaPutcWith consPutc c st := by
  have hspace (st : Console) :
      consPutcWith (cgaPutcWith fun _ st => st) 0x20 st = consPutc 0x20 st :=
    Surface.cgaPutcWith_congr _ _ (by decide) _
  have hcalls : putCharacter (consPutcWith (cgaPutcWith fun _ st => st)) (attributed c) st =
      putCharacter consPutc (attributed c) st := by
    by_cases htab : attributed c &&& 0xFF = 0x09
    · rw [putCharacter_tab _ htab, putCharacter_tab _ htab]
      simp only [hspace]
    · exact Surface.putCharacter_congr _ _ htab st
  rw [cgaPutcWith_eq, ← hcalls]
  rfl

/-! ## Frames -/

/-- A step that writes memory only inside the cells of the display. -/
structure Console.Keeps (st st' : Console) : Prop where
  adapter_eq : st'.adapter = st.adapter
  outside : ∀ a, a < st.adapter.crtBuf ∨ st.adapter.crtBuf + 2 * CRT_SIZE ≤ a →
    st'.mem a = st.mem a

theorem Console.Keeps.refl (st : Console) : st.Keeps st := ⟨rfl, fun _ _ => rfl⟩

theorem Console.Keeps.trans {st st' st'' : Console} (h : st.Keeps st') (h' : st'.Keeps st'') :
    st.Keeps st'' where
  adapter_eq := by rw [h'.adapter_eq, h.adapter_eq]
  outside a ha := by rw [h'.outside a (by rwa [h.adapter_eq]), h.outside a ha]

/-- A step that touches neither the display memory nor the position. -/
structure Console.SameDisplay (st st' : Console) : Prop where
  mem_eq : st'.mem = st.mem
  adapter_eq : st'.adapter = st.adapter
  crtPos_eq : st'.crtPos = st.crtPos

theorem Console.SameDisplay.trans {st st' st'' : Console} (h : st.SameDisplay st')
    (h' : st'.SameDisplay st'') : st.SameDisplay st'' :=
  ⟨h'.mem_eq.trans h.mem_eq, h'.adapter_eq.trans h.adapter_eq, h'.crtPos_eq.trans h.crtPos_eq⟩

theorem Console.SameDisplay.screen_eq {st st' : Console} (h : st.SameDisplay st') :
    st'.screen = st.screen := by
  funext i
  rw [Console.screen, Console.screen, h.mem_eq, h.adapter_eq]

theorem Console.SameDisplay.keeps {st st' : Console} (h : st.SameDisplay st') : st.Keeps st' :=
  ⟨h.adapter_eq, fun _ _ => by rw [h.mem_eq]⟩

theorem inb_sameDisplay (port : Nat) (st : Console) : st.SameDisplay (inb port st).2 :=
  ⟨rfl, rfl, rfl⟩

theorem outb_sameDisplay (port : Nat) (data : Byte) (st : Console) :
    st.SameDisplay (outb port data st) :=
  ⟨rfl, rfl, rfl⟩

theorem delay_sameDisplay (st : Console) : st.SameDisplay (delay st) := ⟨rfl, rfl, rfl⟩

theorem waitReady_sameDisplay (port : Nat) (mask : Byte) (tries : Nat) (st : Console) :
    st.SameDisplay (waitReady port mask tries st) := by
  induction tries generalizing st with
  | zero => exact inb_sameDisplay port st
  | succ tries ih =>
      rw [waitReady]
      dsimp only
      split
      · exact inb_sameDisplay port st
      · exact (inb_sameDisplay port st).trans ((delay_sameDisplay _).trans (ih _))

/-- The two other output devices leave the display alone. -/
theorem ports_sameDisplay (c : Word) (st : Console) :
    st.SameDisplay (lptPutc c (serialPutc c st)) := by
  have hserial : st.SameDisplay (serialPutc c st) :=
    (waitReady_sameDisplay _ _ _ st).trans (outb_sameDisplay _ _ _)
  have hwait := waitReady_sameDisplay (0x378 + 1) 0x80 12800 (serialPutc c st)
  rw [lptPutc]
  exact hserial.trans (hwait.trans ((outb_sameDisplay _ _ _).trans
    ((outb_sameDisplay _ _ _).trans (outb_sameDisplay _ _ _))))

theorem moveCursor_sameDisplay (st : Console) : st.SameDisplay (moveCursor st) := ⟨rfl, rfl, rfl⟩

/-! ## Cells of the display -/

theorem crtBuf_room (adapter : Adapter) : adapter.crtBuf + 2 * CRT_SIZE ≤ 4294967296 := by
  cases adapter <;> decide

theorem screen_setCell (st : Console) (k : Nat) (v : BitVec 16) :
    (st.setCell k v).screen = write st.screen k v := by
  funext i
  rw [Console.screen, Console.setCell]
  by_cases hi : i = k
  · rw [hi, write_same]
    exact load16_store16 _ _ _
  · rw [write_of_ne _ _ hi]
    exact load16_store16_of_ne _ _ (by dsimp only; omega)

theorem setCell_keeps (st : Console) {k : Nat} (hk : k < CRT_SIZE) (v : BitVec 16) :
    st.Keeps (st.setCell k v) where
  adapter_eq := rfl
  outside a ha := store16_outside _ _ (by omega)

theorem blankCells_outside (crtBuf : Nat) (count i : Nat) (m : Memory) {a : Nat}
    (h : a < crtBuf + 2 * i ∨ crtBuf + 2 * (i + count) ≤ a) :
    blankCells crtBuf count i m a = m a := by
  induction count generalizing i m with
  | zero => rfl
  | succ count ih =>
      rw [blankCells, ih _ _ (by omega), store16_outside _ _ (by omega)]

theorem blankCells_inside (crtBuf : Nat) (count i : Nat) (m : Memory) {j : Nat}
    (hlow : i ≤ j) (hhigh : j < i + count) :
    load16 (blankCells crtBuf count i m) (crtBuf + 2 * j) = blank := by
  induction count generalizing i m with
  | zero => omega
  | succ count ih =>
      rw [blankCells]
      rcases Nat.eq_or_lt_of_le hlow with rfl | hlt
      · rw [load16_congr (blankCells_outside _ _ _ _ (by omega))
          (blankCells_outside _ _ _ _ (by omega)), load16_store16]
      · exact ih _ _ hlt (by omega)

/-! ## The log of the display -/

def crt : Geometry := ⟨CRT_ROWS, CRT_COLS, by decide, by decide⟩

abbrev Log := RowLog (BitVec 16) crt blank

/-- What printing a character means for the log. -/
def logCharacter (c : Word) (lg : Log) : Log :=
  if c &&& 0xFF = 0x08 then lg.backspace ((blanked c).setWidth 16)
  else if c &&& 0xFF = 0x0A then lg.newline
  else if c &&& 0xFF = 0x0D then lg.carriageReturn
  else if c &&& 0xFF = 0x09 then
    ((((lg.put blank).put blank).put blank).put blank).put blank
  else lg.put (c.setWidth 16)

def logPutc (c : Word) (lg : Log) : Log := logCharacter (attributed c) lg

/-- The display memory and the position show the window of the log. -/
abbrev Displays (st : Console) (lg : Log) : Prop := lg.Shown st.screen st.crtPos

/-- A step to a console that displays `lg`. -/
structure Draws (st st' : Console) (lg : Log) : Prop where
  displays : Displays st' lg
  keeps : st.Keeps st'

theorem Console.SameDisplay.displays {st st' : Console} (h : st.SameDisplay st') {cells : Nat → BitVec 16}
    {cursor top : Nat} (hshows : Shows crt st.screen st.crtPos cells cursor top) :
    Shows crt st'.screen st'.crtPos cells cursor top := by
  rw [h.screen_eq, h.crtPos_eq]
  exact hshows

theorem Displays.crtPos_lt {st : Console} {lg : Log} (h : Displays st lg) :
    st.crtPos < CRT_SIZE := by
  rw [h.position_eq]
  exact lg.position_lt

/-! ## Scrolling -/

theorem scrollIfFull_of_lt {st : Console} (h : st.crtPos < CRT_SIZE) : scrollIfFull st = st := by
  rw [scrollIfFull_eq, if_neg (Nat.not_le.mpr h)]

/-- The overlapping move and the blank loop together. -/
theorem scrollIfFull_scrolled {st : Console} (h : CRT_SIZE ≤ st.crtPos) :
    Shows.Scrolled crt blank st.screen (scrollIfFull st).screen := by
  have hroom := crtBuf_room st.adapter
  have hsize : CRT_SIZE = 2000 := rfl
  have hcols : CRT_COLS = 80 := rfl
  have hmove := memmove_eq st.mem st.adapter.crtBuf (st.adapter.crtBuf + 2 * CRT_COLS)
    ((CRT_SIZE - CRT_COLS) * 2) (by omega) (by omega)
  rw [scrollIfFull_eq, if_pos h, scroll]
  constructor
  · intro i hi
    have hi' : i < 1920 := hi
    refine load16_congr ?_ ?_
    · dsimp only
      rw [blankCells_outside _ _ _ _ (by omega), hmove, overlay_apply _ _ _ (by omega)]
      congr 1
      show _ = _ + 2 * (i + 80)
      omega
    · dsimp only
      rw [blankCells_outside _ _ _ _ (by omega), hmove, Nat.add_assoc,
        overlay_apply _ _ _ (by omega)]
      congr 1
      show _ = _ + 2 * (i + 80) + 1
      omega
  · intro i hlow hhigh
    have hhigh' : i < 2000 := hhigh
    exact blankCells_inside _ _ _ _ hlow (by omega)

theorem scrollIfFull_keeps (st : Console) : st.Keeps (scrollIfFull st) := by
  by_cases h : st.crtPos < CRT_SIZE
  · rw [scrollIfFull_of_lt h]
    exact Console.Keeps.refl st
  · have hroom := crtBuf_room st.adapter
    have hsize : CRT_SIZE = 2000 := rfl
    have hcols : CRT_COLS = 80 := rfl
    have hmove := memmove_eq st.mem st.adapter.crtBuf (st.adapter.crtBuf + 2 * CRT_COLS)
      ((CRT_SIZE - CRT_COLS) * 2) (by omega) (by omega)
    rw [scrollIfFull_eq, if_pos (by omega), scroll]
    constructor
    · rfl
    · intro a ha
      dsimp only
      rw [blankCells_outside _ _ _ _ (by omega), hmove, overlay_outside _ _ (by omega)]

/-- The end of `cga_putc` settles the log. -/
theorem finish_settle {st : Console} {cells : Nat → BitVec 16} {cursor top : Nat}
    (h : Shows crt st.screen st.crtPos cells cursor top)
    {htop : top * crt.cols ≤ cursor} {hcursor : cursor ≤ top * crt.cols + crt.size}
    {hblank : ∀ i, top * crt.cols + crt.size ≤ i → cells i = blank} :
    Displays (moveCursor (scrollIfFull st)) (RowLog.settle cells cursor top htop hcursor hblank) := by
  have hsettle := h.settle htop hcursor hblank
  refine (moveCursor_sameDisplay _).displays ?_
  by_cases hpos : st.crtPos < CRT_SIZE
  · rw [scrollIfFull_of_lt hpos]
    exact hsettle.1 hpos
  · have hfull : CRT_SIZE ≤ st.crtPos := Nat.not_lt.mp hpos
    have hscrolled := hsettle.2 hfull _ (scrollIfFull_scrolled hfull)
    have hcrtPos : (scrollIfFull st).crtPos = st.crtPos - crt.cols := by
      rw [scrollIfFull_eq, if_pos hfull]
      rfl
    rw [hcrtPos]
    exact hscrolled

/-- Inside the window the end of `cga_putc` only moves the blinking cursor. -/
theorem finish_inside {st : Console} {lg : Log} (h : Displays st lg) :
    Displays (moveCursor (scrollIfFull st)) lg := by
  rw [scrollIfFull_of_lt h.crtPos_lt]
  exact (moveCursor_sameDisplay st).displays h

theorem finish_keeps (st : Console) : st.Keeps (moveCursor (scrollIfFull st)) :=
  (scrollIfFull_keeps st).trans (moveCursor_sameDisplay _).keeps

/-! ## One character -/

/-- A cell at the cursor. -/
theorem ordinary_draws {st : Console} {lg : Log} (h : Displays st lg) (v : BitVec 16) :
    Draws st (moveCursor (scrollIfFull
      { st.setCell st.crtPos v with crtPos := (st.crtPos + 1) % 65536 })) (lg.put v) := by
  have hpos := h.crtPos_lt
  have hsize : CRT_SIZE = 2000 := rfl
  constructor
  · refine finish_settle ?_
    have hshows := (h.write st.crtPos v).move (st.crtPos + 1)
    rw [← screen_setCell, ← Nat.add_assoc, ← h.cursor_eq] at hshows
    dsimp only
    rw [Nat.mod_eq_of_lt (by omega)]
    exact hshows
  · refine (setCell_keeps st hpos v).trans (Console.Keeps.trans ?_ (finish_keeps _))
    exact ⟨rfl, fun _ _ => rfl⟩

/-- A cell before the cursor, unless the cursor is at the top left. -/
theorem backspace_draws {st : Console} {lg : Log} (h : Displays st lg) (v : BitVec 16) :
    Draws st (moveCursor (scrollIfFull
      (if st.crtPos > 0 then
        let st := { st with crtPos := st.crtPos - 1 }
        st.setCell st.crtPos v
      else st))) (lg.backspace v) := by
  have hpos := h.crtPos_lt
  have hcursor := h.cursor_eq
  by_cases hzero : st.crtPos > 0
  · rw [if_pos hzero, RowLog.backspace, dif_pos (by omega)]
    dsimp only
    constructor
    · refine finish_inside ?_
      have hshows := (h.write (st.crtPos - 1) v).move (st.crtPos - 1)
      have hback : lg.top * crt.cols + (st.crtPos - 1) = lg.cursor - 1 := by omega
      rw [← screen_setCell, hback] at hshows
      exact hshows
    · have hcell := setCell_keeps st (show st.crtPos - 1 < CRT_SIZE by omega) v
      have hmoved : (st.setCell (st.crtPos - 1) v).Keeps
          (({ st with crtPos := st.crtPos - 1 } : Console).setCell (st.crtPos - 1) v) :=
        ⟨rfl, fun _ _ => rfl⟩
      exact (hcell.trans hmoved).trans (finish_keeps _)
  · rw [if_neg hzero, RowLog.backspace, dif_neg (by omega)]
    exact ⟨finish_inside h, finish_keeps st⟩

theorem carriageReturn_draws {st : Console} {lg : Log} (h : Displays st lg) :
    Draws st (moveCursor (scrollIfFull (returnCarriage st))) lg.carriageReturn := by
  constructor
  · refine finish_inside ?_
    have hshows := h.move (st.crtPos - st.crtPos % CRT_COLS)
    have hrow : lg.rowStart = lg.top * crt.cols + (st.crtPos - st.crtPos % CRT_COLS) := h.rowStart
    rw [← hrow] at hshows
    exact hshows
  · have hmoved : st.Keeps (returnCarriage st) := ⟨rfl, fun _ _ => rfl⟩
    exact hmoved.trans (finish_keeps _)

/-- The fall-through from `'\n'` to `'\r'`. -/
theorem newline_draws {st : Console} {lg : Log} (h : Displays st lg) :
    Draws st (moveCursor (scrollIfFull
      (returnCarriage { st with crtPos := (st.crtPos + CRT_COLS) % 65536 }))) lg.newline := by
  have hpos := h.crtPos_lt
  have hsize : CRT_SIZE = 2000 := rfl
  have hcols : CRT_COLS = 80 := rfl
  constructor
  · refine finish_settle ?_
    have hshows := h.move (st.crtPos + CRT_COLS - (st.crtPos + CRT_COLS) % CRT_COLS)
    have hrow : lg.rowStart = lg.top * crt.cols + (st.crtPos - st.crtPos % CRT_COLS) := h.rowStart
    have hnext : lg.top * crt.cols + (st.crtPos + CRT_COLS - (st.crtPos + CRT_COLS) % CRT_COLS) =
        lg.rowStart + CRT_COLS := by
      rw [hrow, hcols]
      omega
    rw [hnext] at hshows
    rw [returnCarriage]
    dsimp only
    rw [Nat.mod_eq_of_lt (show st.crtPos + CRT_COLS < 65536 by omega)]
    exact hshows
  · have hmoved : st.Keeps (returnCarriage { st with crtPos := (st.crtPos + CRT_COLS) % 65536 }) :=
      ⟨rfl, fun _ _ => rfl⟩
    exact hmoved.trans (finish_keeps _)

/-- Any character but a tab. -/
theorem cgaPutcWith_draws (consPutc : Word → Console → Console) {c : Word}
    (hc : attributed c &&& 0xFF ≠ 0x09) {st : Console} {lg : Log} (h : Displays st lg) :
    Draws st (cgaPutcWith consPutc c st) (logPutc c lg) := by
  rw [cgaPutcWith_eq]
  unfold logPutc logCharacter putCharacter Surface.putCharacter
  split
  · exact backspace_draws h _
  · split
    · exact newline_draws h
    · split
      · exact carriageReturn_draws h
      · exact ordinary_draws h _

/-- A space printed on all three devices. -/
theorem consPutc_space_draws {st : Console} {lg : Log} (h : Displays st lg) :
    Draws st (consPutc 0x20 st) (lg.put blank) := by
  have hports := ports_sameDisplay 0x20 st
  have hspace := cgaPutcWith_draws (consPutcWith (cgaPutcWith fun _ st => st))
    (show attributed 0x20 &&& 0xFF ≠ 0x09 by decide) (hports.displays h)
  exact ⟨hspace.displays, hports.keeps.trans hspace.keeps⟩

theorem Draws.trans {st st' st'' : Console} {lg lg' : Log} (h : Draws st st' lg)
    (h' : Draws st' st'' lg') : Draws st st'' lg' :=
  ⟨h'.displays, h.keeps.trans h'.keeps⟩

theorem logCharacter_tab {c : Word} (hc : c &&& 0xFF = 0x09) (lg : Log) :
    logCharacter c lg = ((((lg.put blank).put blank).put blank).put blank).put blank := by
  rw [logCharacter, hc, if_neg (by decide), if_neg (by decide), if_neg (by decide), if_pos rfl]

/-- Five spaces, by the calls back into `cons_putc`. -/
theorem tab_draws {c : Word} (hc : attributed c &&& 0xFF = 0x09) {st : Console} {lg : Log}
    (h : Displays st lg) : Draws st (cgaPutcWith consPutc c st) (logPutc c lg) := by
  have hfirst := consPutc_space_draws h
  have hsecond := hfirst.trans (consPutc_space_draws hfirst.displays)
  have hthird := hsecond.trans (consPutc_space_draws hsecond.displays)
  have hfourth := hthird.trans (consPutc_space_draws hthird.displays)
  have hfifth := hfourth.trans (consPutc_space_draws hfourth.displays)
  rw [cgaPutcWith_eq, putCharacter_tab _ hc, logPutc, logCharacter_tab hc]
  exact ⟨finish_inside hfifth.displays, hfifth.keeps.trans (finish_keeps _)⟩

/-- `cga_putc` draws the log entry of its character. -/
theorem cgaPutc_draws (c : Word) {st : Console} {lg : Log} (h : Displays st lg) :
    Draws st (cgaPutc c st) (logPutc c lg) := by
  rw [cgaPutc_nested]
  by_cases hc : attributed c &&& 0xFF = 0x09
  · exact tab_draws hc h
  · exact cgaPutcWith_draws consPutc hc h

theorem consPutc_draws (c : Word) {st : Console} {lg : Log} (h : Displays st lg) :
    Draws st (consPutc c st) (logPutc c lg) := by
  have hports := ports_sameDisplay c st
  have hdraws := cgaPutc_draws c (hports.displays h)
  exact ⟨hdraws.displays, hports.keeps.trans hdraws.keeps⟩

/-! ## Whole runs -/

/-- A sequence of calls of `cga_putc`. -/
def cgaPutcs (cs : List Word) (st : Console) : Console := cs.foldl (fun st c => cgaPutc c st) st

def logPutcs (cs : List Word) (lg : Log) : Log := cs.foldl (fun lg c => logPutc c lg) lg

theorem cgaPutcs_draws (cs : List Word) {st : Console} {lg : Log} (h : Displays st lg) :
    Draws st (cgaPutcs cs st) (logPutcs cs lg) := by
  induction cs generalizing st lg with
  | nil => exact ⟨h, Console.Keeps.refl st⟩
  | cons c cs ih =>
      have hfirst := cgaPutc_draws c h
      exact hfirst.trans (ih hfirst.displays)

/-- The bytes that set the cursor registers 14 and 15 of the adapter to `pos`. -/
def cursorWrites (adapter : Adapter) (pos : Nat) : List (Nat × Byte) :=
  [(adapter.addr6845, 14), (adapter.addr6845 + 1, BitVec.ofNat 8 (pos / 256)),
    (adapter.addr6845, 15), (adapter.addr6845 + 1, BitVec.ofNat 8 pos)]

theorem moveCursor_outbs (st : Console) :
    (moveCursor st).outbs =
      st.outbs ++ cursorWrites (moveCursor st).adapter (moveCursor st).crtPos := by
  simp [moveCursor, outb, cursorWrites]

/-- The last bytes any call sends are the cursor position. -/
theorem cgaPutc_outbs (c : Word) (st : Console) :
    ∃ earlier, (cgaPutc c st).outbs =
      earlier ++ cursorWrites (cgaPutc c st).adapter (cgaPutc c st).crtPos := by
  rw [cgaPutc_nested, cgaPutcWith_eq]
  exact ⟨_, moveCursor_outbs _⟩

theorem cgaPutcs_outbs (cs : List Word) (st : Console) (hcs : cs ≠ []) :
    ∃ earlier, (cgaPutcs cs st).outbs =
      earlier ++ cursorWrites (cgaPutcs cs st).adapter (cgaPutcs cs st).crtPos := by
  induction cs generalizing st with
  | nil => exact absurd rfl hcs
  | cons c cs ih =>
      rw [cgaPutcs, List.foldl_cons]
      cases cs with
      | nil => exact cgaPutc_outbs c st
      | cons next cs => exact ih (cgaPutc c st) (List.cons_ne_nil next cs)

/-- The log of a display that starts out showing `st`. -/
def Console.log (st : Console) (hpos : st.crtPos < CRT_SIZE) : Log :=
  RowLog.start crt blank st.screen st.crtPos hpos

/-- After any sequence of characters the display memory is the window of the
log and `crt_pos` is its cursor; nothing outside the 2000 cells has changed,
and the cursor registers were last set to `crt_pos`. -/
theorem cgaPutcs_refines_log (st : Console) (hpos : st.crtPos < CRT_SIZE) (cs : List Word) :
    (∀ i < CRT_SIZE, (cgaPutcs cs st).screen i = (logPutcs cs (st.log hpos)).window i) ∧
    (cgaPutcs cs st).crtPos = (logPutcs cs (st.log hpos)).position ∧
    (cgaPutcs cs st).crtPos < CRT_SIZE ∧
    (cgaPutcs cs st).adapter = st.adapter ∧
    (∀ a, a < st.adapter.crtBuf ∨ st.adapter.crtBuf + 2 * CRT_SIZE ≤ a →
      (cgaPutcs cs st).mem a = st.mem a) ∧
    (cs ≠ [] → ∃ earlier, (cgaPutcs cs st).outbs =
      earlier ++ cursorWrites st.adapter (cgaPutcs cs st).crtPos) := by
  have hstart : Displays st (st.log hpos) :=
    RowLog.shown_start st.screen st.crtPos (show st.crtPos < crt.size from hpos)
  have hdraws := cgaPutcs_draws cs hstart
  refine ⟨hdraws.displays.window, hdraws.displays.position_eq, hdraws.displays.crtPos_lt,
    hdraws.keeps.adapter_eq, hdraws.keeps.outside, ?_⟩
  intro hcs
  have hlast := cgaPutcs_outbs cs st hcs
  rw [hdraws.keeps.adapter_eq] at hlast
  exact hlast

/-- A character in the last cell scrolls, and the cursor is sent to the start
of the last row. -/
theorem cgaPutcs_refines_log_last_cell :
    ∃ earlier, (cgaPutcs [0x41] ⟨fun _ => 0, fun _ _ => 0, [], .cga, 1999⟩).outbs =
      earlier ++ [(0x3D4, 14), (0x3D5, 7), (0x3D4, 15), (0x3D5, 128)] := by
  have hrefines := cgaPutcs_refines_log ⟨fun _ => 0, fun _ _ => 0, [], .cga, 1999⟩ (by decide) [0x41]
  obtain ⟨_, hposition, _, _, _, hcursor⟩ := hrefines
  obtain ⟨earlier, houtbs⟩ := hcursor (List.cons_ne_nil _ _)
  rw [hposition] at houtbs
  exact ⟨earlier, houtbs⟩

end JOSKernel.Kern.ConsoleOutput
