import Mathlib.Tactic.Common

/-!
# Row-wrapped logs

What a text display has been told is an unbounded log of cells, wrapped into
rows of a fixed number of columns.  The display shows a window of rows that
moves down by one row when the cursor leaves it, and the rows the window has
not reached yet are blank.
-/

namespace JOSKernel.General.Display

structure Geometry where
  rows : Nat
  cols : Nat
  rows_pos : 0 < rows
  cols_pos : 0 < cols

/-- The number of cells in the window. -/
def Geometry.size (g : Geometry) : Nat := g.rows * g.cols

theorem Geometry.cols_le_size (g : Geometry) : g.cols ≤ g.size :=
  Nat.le_mul_of_pos_left _ g.rows_pos

/-- A log whose cursor is inside the window that starts at row `top`. -/
structure RowLog (α : Type) (g : Geometry) (blank : α) where
  cells : Nat → α
  cursor : Nat
  top : Nat
  top_le : top * g.cols ≤ cursor
  cursor_lt : cursor < top * g.cols + g.size
  blank_below : ∀ i, top * g.cols + g.size ≤ i → cells i = blank

/-- Replace one cell. -/
def write {α : Type} (cells : Nat → α) (k : Nat) (a : α) : Nat → α :=
  fun i => if i = k then a else cells i

@[simp]
theorem write_same {α : Type} (cells : Nat → α) (k : Nat) (a : α) : write cells k a k = a := by
  simp [write]

theorem write_of_ne {α : Type} (cells : Nat → α) {k i : Nat} (a : α) (h : i ≠ k) :
    write cells k a i = cells i := by
  simp [write, h]

namespace RowLog

variable {α : Type} {g : Geometry} {blank : α}

/-! ## Operations -/

/-- The log of a display that shows `screen`, with nothing above it. -/
def start (g : Geometry) (blank : α) (screen : Nat → α) (pos : Nat) (h : pos < g.size) :
    RowLog α g blank where
  cells i := if i < g.size then screen i else blank
  cursor := pos
  top := 0
  top_le := by omega
  cursor_lt := by omega
  blank_below i hi := by rw [if_neg (by omega)]

/-- Move the window down by one row if the cursor has left it. -/
def settle (cells : Nat → α) (cursor top : Nat) (htop : top * g.cols ≤ cursor)
    (hcursor : cursor ≤ top * g.cols + g.size)
    (hblank : ∀ i, top * g.cols + g.size ≤ i → cells i = blank) : RowLog α g blank :=
  if h : cursor < top * g.cols + g.size then
    ⟨cells, cursor, top, htop, h, hblank⟩
  else
    ⟨cells, cursor, top + 1, by have := g.cols_le_size; rw [Nat.succ_mul]; omega,
      by have := g.cols_pos; rw [Nat.succ_mul]; omega,
      fun i hi => hblank i (by rw [Nat.succ_mul] at hi; omega)⟩

/-- Write one cell at the cursor and advance. -/
def put (lg : RowLog α g blank) (a : α) : RowLog α g blank :=
  settle (write lg.cells lg.cursor a) (lg.cursor + 1) lg.top (Nat.le_succ_of_le lg.top_le)
    lg.cursor_lt
    (fun i hi => by
      have hlt := lg.cursor_lt
      rw [write_of_ne _ _ (by omega)]
      exact lg.blank_below i hi)

/-- The start of the row the cursor is in. -/
def rowStart (lg : RowLog α g blank) : Nat := lg.cursor / g.cols * g.cols

theorem top_le_rowStart (lg : RowLog α g blank) : lg.top * g.cols ≤ lg.rowStart :=
  Nat.mul_le_mul_right _ ((Nat.le_div_iff_mul_le g.cols_pos).mpr lg.top_le)

theorem rowStart_le (lg : RowLog α g blank) : lg.rowStart ≤ lg.cursor :=
  Nat.div_mul_le_self _ _

theorem rowStart_next_le (lg : RowLog α g blank) :
    lg.rowStart + g.cols ≤ lg.top * g.cols + g.size := by
  have hrow : lg.cursor / g.cols < lg.top + g.rows := by
    rw [Nat.div_lt_iff_lt_mul g.cols_pos, Nat.add_mul]
    exact lg.cursor_lt
  have hmul := Nat.mul_le_mul_right g.cols (Nat.succ_le_of_lt hrow)
  rw [Nat.succ_mul, Nat.add_mul] at hmul
  exact hmul

/-- Go to the start of the next row. -/
def newline (lg : RowLog α g blank) : RowLog α g blank :=
  settle lg.cells (lg.rowStart + g.cols) lg.top (Nat.le_add_right_of_le lg.top_le_rowStart)
    lg.rowStart_next_le lg.blank_below

def carriageReturn (lg : RowLog α g blank) : RowLog α g blank :=
  { lg with
    cursor := lg.rowStart
    top_le := lg.top_le_rowStart
    cursor_lt := Nat.lt_of_le_of_lt lg.rowStart_le lg.cursor_lt }

/-- Move back and overwrite that cell, unless the window has no cell there. -/
def backspace (lg : RowLog α g blank) (a : α) : RowLog α g blank :=
  if h : lg.top * g.cols < lg.cursor then
    { lg with
      cells := write lg.cells (lg.cursor - 1) a
      cursor := lg.cursor - 1
      top_le := by omega
      cursor_lt := by
        have := lg.cursor_lt
        omega
      blank_below := fun i hi => by
        have := lg.cursor_lt
        rw [write_of_ne _ _ (by omega)]
        exact lg.blank_below i hi }
  else lg

/-! ## The window -/

/-- The cells on display. -/
def window (lg : RowLog α g blank) (i : Nat) : α := lg.cells (lg.top * g.cols + i)

/-- The cursor as an index into the window. -/
def position (lg : RowLog α g blank) : Nat := lg.cursor - lg.top * g.cols

theorem position_lt (lg : RowLog α g blank) : lg.position < g.size := by
  have := lg.top_le
  have := lg.cursor_lt
  rw [position]
  omega

end RowLog

variable {α : Type} {g : Geometry} {blank : α}

/-- A screen and a position in it show the cells from row `top` on.  Unlike in
a log, the position may be one behind the last cell. -/
structure Shows (g : Geometry) (screen : Nat → α) (pos : Nat) (cells : Nat → α)
    (cursor top : Nat) : Prop where
  cursor_eq : cursor = top * g.cols + pos
  window : ∀ i < g.size, screen i = cells (top * g.cols + i)

/-- A screen and a position show the window of a log. -/
abbrev RowLog.Shown (lg : RowLog α g blank) (screen : Nat → α) (pos : Nat) : Prop :=
  Shows g screen pos lg.cells lg.cursor lg.top

theorem RowLog.Shown.position_eq {lg : RowLog α g blank} {screen : Nat → α} {pos : Nat}
    (h : lg.Shown screen pos) : pos = lg.position := by
  rw [RowLog.position, h.cursor_eq, Nat.add_sub_cancel_left]

theorem RowLog.shown_start (screen : Nat → α) (pos : Nat) (h : pos < g.size) :
    (RowLog.start g blank screen pos h).Shown screen pos where
  cursor_eq := by simp [RowLog.start]
  window i hi := by simp [RowLog.start, hi]

namespace Shows

variable {screen : Nat → α} {pos : Nat} {cells : Nat → α} {cursor top : Nat}

/-- Writing a cell of the screen writes a cell of the log. -/
theorem write (h : Shows g screen pos cells cursor top) (k : Nat) (a : α) :
    Shows g (Display.write screen k a) pos (Display.write cells (top * g.cols + k) a) cursor top where
  cursor_eq := h.cursor_eq
  window i hi := by
    by_cases hik : i = k
    · rw [hik, write_same, write_same]
    · rw [write_of_ne _ _ hik, write_of_ne _ _ (by omega), h.window i hi]

theorem move (h : Shows g screen pos cells cursor top) (k : Nat) :
    Shows g screen k cells (top * g.cols + k) top :=
  ⟨rfl, h.window⟩

/-- The start of a row has the same column on the screen and in the log. -/
theorem rowStart (h : Shows g screen pos cells cursor top) :
    cursor / g.cols * g.cols = top * g.cols + (pos - pos % g.cols) := by
  have hdiv := Nat.div_add_mod' pos g.cols
  rw [h.cursor_eq, Nat.add_comm (top * g.cols) pos, Nat.add_mul_div_right _ _ g.cols_pos, Nat.add_mul]
  omega

/-- The screen with every row moved up by one and a blank row at the bottom. -/
def Scrolled (g : Geometry) (blank : α) (screen screen' : Nat → α) : Prop :=
  (∀ i, i < g.size - g.cols → screen' i = screen (i + g.cols)) ∧
    ∀ i, g.size - g.cols ≤ i → i < g.size → screen' i = blank

theorem scroll (h : Shows g screen pos cells cursor top) (hpos : g.cols ≤ pos)
    (hblank : ∀ i, top * g.cols + g.size ≤ i → cells i = blank) {screen' : Nat → α}
    (hscrolled : Scrolled g blank screen screen') :
    Shows g screen' (pos - g.cols) cells cursor (top + 1) where
  cursor_eq := by
    rw [h.cursor_eq, Nat.succ_mul]
    omega
  window i hi := by
    rw [Nat.succ_mul]
    by_cases hkept : i < g.size - g.cols
    · rw [hscrolled.1 i hkept, h.window _ (by omega)]
      congr 1
      omega
    · rw [hscrolled.2 i (by omega) hi, hblank _ (by omega)]

/-- Settling on the screen: nothing happens inside the window, and a position
behind the last cell scrolls. -/
theorem settle (h : Shows g screen pos cells cursor top)
    (htop : top * g.cols ≤ cursor) (hcursor : cursor ≤ top * g.cols + g.size)
    (hblank : ∀ i, top * g.cols + g.size ≤ i → cells i = blank) :
    (pos < g.size → (RowLog.settle cells cursor top htop hcursor hblank).Shown screen pos) ∧
    (g.size ≤ pos → ∀ screen', Scrolled g blank screen screen' →
      (RowLog.settle cells cursor top htop hcursor hblank).Shown screen' (pos - g.cols)) := by
  have hcursor_eq := h.cursor_eq
  have hsize := g.cols_le_size
  constructor
  · intro hpos
    unfold RowLog.settle
    rw [dif_pos (by omega)]
    exact h
  · intro hpos screen' hscrolled
    unfold RowLog.settle
    rw [dif_neg (by omega)]
    exact h.scroll (by omega) hblank hscrolled

end Shows

/-! ## Text before the cursor -/

/-- The cells right before the cursor hold `text`, and all of them are on
display. -/
def RowLog.Holds (lg : RowLog α g blank) (text : List α) : Prop :=
  ∃ first, lg.top * g.cols ≤ first ∧ first + text.length = lg.cursor ∧
    ∀ i (h : i < text.length), lg.cells (first + i) = text[i]

theorem RowLog.holds_nil (lg : RowLog α g blank) : lg.Holds [] :=
  ⟨lg.cursor, lg.top_le, rfl, fun i h => absurd h (Nat.not_lt_zero i)⟩

/-- A text that fits into all rows but one stays on display when it grows: after
a scroll the cursor is that far from the top. -/
theorem RowLog.Holds.put {lg : RowLog α g blank} {text : List α} (h : lg.Holds text) (a : α)
    (hroom : text.length + 1 ≤ g.size - g.cols) : (lg.put a).Holds (text ++ [a]) := by
  obtain ⟨first, htop, hcursor, hcells⟩ := h
  have htext (i : Nat) (hi : i < (text ++ [a]).length) :
      write lg.cells lg.cursor a (first + i) = (text ++ [a])[i] := by
    rw [List.length_append, List.length_singleton] at hi
    by_cases hlast : i = text.length
    · subst hlast
      rw [hcursor, write_same]
      simp
    · rw [write_of_ne _ _ (by omega), hcells i (by omega), List.getElem_append_left]
  rw [RowLog.put, RowLog.settle]
  split
  · refine ⟨first, htop, ?_, htext⟩
    rw [List.length_append, List.length_singleton, ← Nat.add_assoc, hcursor]
  · refine ⟨first, ?_, ?_, htext⟩
    · rw [Nat.succ_mul]
      omega
    · rw [List.length_append, List.length_singleton, ← Nat.add_assoc, hcursor]

theorem RowLog.Holds.backspace {lg : RowLog α g blank} {text : List α} {last : α}
    (h : lg.Holds (text ++ [last])) (a : α) : (lg.backspace a).Holds text := by
  obtain ⟨first, htop, hcursor, hcells⟩ := h
  rw [List.length_append, List.length_singleton] at hcursor
  rw [RowLog.backspace, dif_pos (by omega)]
  refine ⟨first, htop, by dsimp only; omega, ?_⟩
  intro i hi
  dsimp only
  rw [write_of_ne _ _ (by omega), hcells i (by rw [List.length_append]; omega),
    List.getElem_append_left]

/-- On a screen that shows the log, the text stands right before the position. -/
theorem RowLog.Holds.on_screen {lg : RowLog α g blank} {text : List α} (h : lg.Holds text)
    {screen : Nat → α} {pos : Nat} (hshown : lg.Shown screen pos) :
    text.length ≤ pos ∧ ∀ i (hi : i < text.length), screen (pos - text.length + i) = text[i] := by
  obtain ⟨first, htop, hcursor, hcells⟩ := h
  have hpos := hshown.cursor_eq
  have hlt := lg.cursor_lt
  constructor
  · omega
  · intro i hi
    rw [hshown.window _ (by omega), ← hcells i hi]
    congr 1
    omega

end JOSKernel.General.Display
