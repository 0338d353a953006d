import JOSKernel.Kern.ConsoleOutput

/-!
# The display from start-up on (`kern/console.c`)

`cga_init` takes the cursor position over from the adapter as it reads it.
From then on the cells that `cga_putc` stores to are recorded call by call.  A
position inside the display stays inside and so do the stores; from a position
outside of it only a few first characters lead back without a stray store.
-/

namespace JOSKernel.Kern.ConsoleInit

open JOSKernel.General.MachineInt
open JOSKernel.General.ByteMemory
open JOSKernel.Kern.ConsoleOutput

/-- `seen` is what the volatile read of the CGA memory finds after the test
pattern has been stored there. -/
def cgaInit (seen : BitVec 16) (st : Console) : Console :=
  let cp := Adapter.cga.crtBuf
  let was := load16 st.mem cp
  let st := { st with mem := store16 st.mem cp 0xA55A }
  let st :=
    if seen ≠ 0xA55A then { st with adapter := .mono }
    else { st with mem := store16 st.mem cp was, adapter := .cga }
  -- Extract cursor location
  let (high, st) := inb (st.adapter.addr6845 + 1) (outb st.adapter.addr6845 14 st)
  let (low, st) := inb (st.adapter.addr6845 + 1) (outb st.adapter.addr6845 15 st)
  let pos := ofUChar high <<< 8 ||| ofUChar low
  { st with crtPos := (pos.setWidth 16).toNat }

/-- The adapter that the probe finds. -/
def found (seen : BitVec 16) : Adapter := if seen ≠ 0xA55A then .mono else .cga

theorem position_bytes (high low : Byte) :
    ((ofUChar high <<< 8 ||| ofUChar low).setWidth 16).toNat = high.toNat * 256 + low.toNat := by
  have hbytes : (ofUChar high <<< 8 ||| ofUChar low).setWidth 16 = high ++ low := by
    apply BitVec.eq_of_getLsbD_eq
    intro i hi
    rw [BitVec.getLsbD_setWidth, BitVec.getLsbD_or, BitVec.getLsbD_shiftLeft, BitVec.getLsbD_append,
      ofUChar, ofUChar, BitVec.getLsbD_setWidth, BitVec.getLsbD_setWidth]
    grind
  rw [hbytes, BitVec.toNat_append, ← Nat.shiftLeft_add_eq_or_of_lt low.isLt, Nat.shiftLeft_eq]

/-- Registers 14 and 15 hold the two bytes of the position. -/
theorem cgaInit_crtPos (seen : BitVec 16) (st : Console) :
    (cgaInit seen st).crtPos =
      (st.inbs 0 ((found seen).addr6845 + 1)).toNat * 256 +
        (st.inbs 1 ((found seen).addr6845 + 1)).toNat := by
  rw [← position_bytes]
  unfold cgaInit found
  split
  · rfl
  · rfl

/-! ## Recorded stores -/

/-- A console, and the indices `i` of all stores to `crt_buf[i]` so far. -/
structure Traced where
  console : Console
  stores : List Nat

def Traced.map (f : Console → Console) (t : Traced) : Traced := ⟨f t.console, t.stores⟩

def Traced.setCell (t : Traced) (i : Nat) (v : BitVec 16) : Traced :=
  ⟨t.console.setCell i v, t.stores ++ [i]⟩

/-- The cells that `memmove` copies to, then those that the loop blanks. -/
def scrollStores : List Nat :=
  List.range (CRT_SIZE - CRT_COLS) ++ List.range' (CRT_SIZE - CRT_COLS) CRT_COLS

/-- The console with its records. -/
abbrev traced : Surface Traced where
  console t := t.console
  update := Traced.map
  setCell i v t := t.setCell i v
  scroll t := ⟨scroll t.console, t.stores ++ scrollStores⟩

def cgaPutc : Word → Traced → Traced := traced.cgaPutc

theorem scrollIfFull_traced (t : Traced) :
    traced.scrollIfFull t =
      if t.console.crtPos ≥ CRT_SIZE then ⟨scroll t.console, t.stores ++ scrollStores⟩ else t := rfl

theorem cgaPutc_eq (c : Word) (t : Traced) :
    cgaPutc c t =
      traced.cgaPutcWith (traced.consPutcWith (traced.cgaPutcWith fun _ t => t)) c t := rfl

/-! ## The recording follows the code -/

/-- A step that does to the console what `f` does. -/
def Follows (f : Console → Console) (step : Traced → Traced) : Prop :=
  ∀ t, (step t).console = f t.console

theorem cgaPutcWith_follows {f : Word → Console → Console} {step : Word → Traced → Traced}
    (h : ∀ c, Follows (f c) (step c)) (c : Word) :
    Follows (cgaPutcWith f c) (traced.cgaPutcWith step c) := by
  intro t
  have hput : (traced.putCharacter step (attributed c) t).console =
      putCharacter f (attributed c) t.console := by
    unfold putCharacter Surface.putCharacter
    split
    · split
      · rfl
      · rfl
    · split
      · rfl
      · split
        · rfl
        · split
          · rw [h, h, h, h, h]
          · rfl
  have hscroll (t : Traced) : (traced.scrollIfFull t).console = scrollIfFull t.console := by
    rw [scrollIfFull_traced, scrollIfFull_eq]
    split
    · rfl
    · rfl
  rw [cgaPutcWith_eq, ← hput, ← hscroll]
  rfl

/-- Without its records the recording call is `cga_putc`. -/
theorem cgaPutc_follows (c : Word) : Follows (ConsoleOutput.cgaPutc c) (cgaPutc c) := by
  apply cgaPutcWith_follows
  intro c t
  exact cgaPutcWith_follows (f := fun _ st => st) (fun _ _ => rfl) c
    (t.map fun st => lptPutc c (serialPutc c st))

/-- A step that records every cell it changes. -/
def Records (t t' : Traced) : Prop :=
  ∃ new, t'.stores = t.stores ++ new ∧ t'.console.adapter = t.console.adapter ∧
    ∀ a, (∀ i ∈ new, a < t.console.adapter.crtBuf + 2 * i ∨
      t.console.adapter.crtBuf + 2 * i + 2 ≤ a) → t'.console.mem a = t.console.mem a

namespace Records

theorem refl (t : Traced) : Records t t :=
  ⟨[], (List.append_nil _).symm, rfl, fun _ _ => rfl⟩

theorem trans {t t' t'' : Traced} (h : Records t t') (h' : Records t' t'') : Records t t'' := by
  obtain ⟨new, hstores, hadapter, hmem⟩ := h
  obtain ⟨new', hstores', hadapter', hmem'⟩ := h'
  refine ⟨new ++ new', ?_, hadapter'.trans hadapter, ?_⟩
  · rw [hstores', hstores, List.append_assoc]
  · intro a ha
    rw [hmem' a ?_, hmem a fun i hi => ha i (List.mem_append_left _ hi)]
    rw [hadapter]
    exact fun i hi => ha i (List.mem_append_right _ hi)

theorem map {f : Console → Console} (t : Traced) (hmem : (f t.console).mem = t.console.mem)
    (hadapter : (f t.console).adapter = t.console.adapter) : Records t (t.map f) :=
  ⟨[], (List.append_nil _).symm, hadapter, fun a _ => congrFun hmem a⟩

theorem setCell (t : Traced) (i : Nat) (v : BitVec 16) : Records t (t.setCell i v) :=
  ⟨[i], rfl, rfl, fun _ ha => store16_outside _ _ (ha i List.mem_cons_self)⟩

/-- The stores made before a step stay recorded. -/
theorem mem {t t' : Traced} (h : Records t t') {i : Nat} (hi : i ∈ t.stores) : i ∈ t'.stores := by
  obtain ⟨new, hstores, _⟩ := h
  rw [hstores]
  exact List.mem_append_left _ hi

end Records

theorem mem_scrollStores {i : Nat} : i ∈ scrollStores ↔ i < CRT_SIZE := by
  have hsize : CRT_SIZE = 2000 := rfl
  have hcols : CRT_COLS = 80 := rfl
  rw [scrollStores, List.mem_append, List.mem_range, List.mem_range'_1]
  omega

theorem scrollIfFull_records (t : Traced) : Records t (traced.scrollIfFull t) := by
  rw [scrollIfFull_traced]
  split
  · rename_i hfull
    have hkeeps := scrollIfFull_keeps t.console
    rw [scrollIfFull_eq, if_pos hfull] at hkeeps
    refine ⟨scrollStores, rfl, hkeeps.adapter_eq, fun a ha => hkeeps.outside a ?_⟩
    -- A byte inside the display is in the cell of half its offset.
    have hcell := fun h => ha ((a - t.console.adapter.crtBuf) / 2) (mem_scrollStores.mpr h)
    omega
  · exact Records.refl t

theorem moveCursor_records (t : Traced) : Records t (t.map moveCursor) := Records.map t rfl rfl

theorem cgaPutcWith_records {step : Word → Traced → Traced} (h : ∀ c t, Records t (step c t))
    (c : Word) (t : Traced) : Records t (traced.cgaPutcWith step c t) := by
  have hput : Records t (traced.putCharacter step (attributed c) t) := by
    unfold Surface.putCharacter
    split
    · split
      · exact (Records.map t rfl rfl).trans (Records.setCell _ _ _)
      · exact Records.refl t
    · split
      · exact Records.map t rfl rfl
      · split
        · exact Records.map t rfl rfl
        · split
          · exact ((((h _ _).trans (h _ _)).trans (h _ _)).trans (h _ _)).trans (h _ _)
          · exact (Records.setCell t _ _).trans (Records.map _ rfl rfl)
  exact (hput.trans (scrollIfFull_records _)).trans (moveCursor_records _)

theorem consPutcWith_records {step : Word → Traced → Traced} (h : ∀ c t, Records t (step c t))
    (c : Word) (t : Traced) : Records t (traced.consPutcWith step c t) := by
  have hports := ports_sameDisplay c t.console
  exact (Records.map t hports.mem_eq hports.adapter_eq).trans (h c _)

/-- `cga_putc` changes no byte outside the cells it is recorded to store to. -/
theorem cgaPutc_records (c : Word) (t : Traced) : Records t (cgaPutc c t) :=
  cgaPutcWith_records (consPutcWith_records (cgaPutcWith_records fun _ => Records.refl)) c t

/-! ## Inside the display -/

structure Traced.Inside (t : Traced) : Prop where
  stores : ∀ i ∈ t.stores, i < CRT_SIZE
  position : t.console.crtPos < CRT_SIZE

theorem setCell_stores {t : Traced} (h : ∀ i ∈ t.stores, i < CRT_SIZE) {i : Nat}
    (hi : i < CRT_SIZE) (v : BitVec 16) : ∀ j ∈ (t.setCell i v).stores, j < CRT_SIZE := by
  intro j hj
  rcases List.mem_append.mp hj with hj | hj
  · exact h j hj
  · rw [List.mem_singleton.mp hj]
    exact hi

/-- Scrolling brings a position back exactly if it is at most one row too far. -/
theorem finish_inside_iff {t : Traced} (h : ∀ i ∈ t.stores, i < CRT_SIZE) :
    ((traced.scrollIfFull t).map moveCursor).Inside ↔ t.console.crtPos < CRT_SIZE + CRT_COLS := by
  have hsize : CRT_SIZE = 2000 := rfl
  rw [scrollIfFull_traced]
  split
  · rename_i hfull
    have hscrolled : ((Traced.mk (scroll t.console)
        (t.stores ++ scrollStores)).map moveCursor).console.crtPos =
          t.console.crtPos - CRT_COLS := rfl
    constructor
    · intro hinside
      have hposition := hinside.position
      omega
    · intro hpos
      refine ⟨?_, by omega⟩
      intro i hi
      rcases List.mem_append.mp hi with hi | hi
      · exact h i hi
      · exact mem_scrollStores.mp hi
  · rename_i hfull
    have hpos : t.console.crtPos < CRT_SIZE := Nat.not_le.mp hfull
    exact ⟨fun _ => Nat.lt_add_right _ hpos, fun _ => ⟨h, hpos⟩⟩

/-- Any character but a tab, from inside the display. -/
theorem cgaPutcWith_inside (step : Word → Traced → Traced) {c : Word}
    (hc : attributed c &&& 0xFF ≠ 0x09) {t : Traced} (h : t.Inside) :
    (traced.cgaPutcWith step c t).Inside := by
  have hpos := h.position
  have hsize : CRT_SIZE = 2000 := rfl
  have hcols : CRT_COLS = 80 := rfl
  unfold Surface.cgaPutcWith Surface.putCharacter
  split
  · split
    · refine (finish_inside_iff ?_).mpr ?_
      · exact setCell_stores (t := t.map _) h.stores
          (show t.console.crtPos - 1 < CRT_SIZE by omega) _
      · change t.console.crtPos - 1 < CRT_SIZE + CRT_COLS
        omega
    · exact (finish_inside_iff h.stores).mpr (by omega)
  · split
    · refine (finish_inside_iff (t := t.map _) h.stores).mpr ?_
      change (t.console.crtPos + CRT_COLS) % 65536 - (t.console.crtPos + CRT_COLS) % 65536 % CRT_COLS <
        CRT_SIZE + CRT_COLS
      omega
    · split
      · refine (finish_inside_iff (t := t.map _) h.stores).mpr ?_
        change t.console.crtPos - t.console.crtPos % CRT_COLS < CRT_SIZE + CRT_COLS
        omega
      · refine (finish_inside_iff ?_).mpr ?_
        · exact setCell_stores h.stores hpos ((attributed c).setWidth 16)
        · change (t.console.crtPos + 1) % 65536 < CRT_SIZE + CRT_COLS
          omega

theorem ports_inside (c : Word) {t : Traced} (h : t.Inside) :
    (t.map fun st => lptPutc c (serialPutc c st)).Inside := by
  refine ⟨h.stores, ?_⟩
  change (lptPutc c (serialPutc c t.console)).crtPos < CRT_SIZE
  rw [(ports_sameDisplay c t.console).crtPos_eq]
  exact h.position

theorem consPutc_space_inside (step : Word → Traced → Traced) {t : Traced} (h : t.Inside) :
    (traced.consPutcWith (traced.cgaPutcWith step) 0x20 t).Inside :=
  cgaPutcWith_inside step (by decide) (ports_inside 0x20 h)

/-- `cga_putc` stores inside the display and stays there. -/
theorem cgaPutc_inside (c : Word) {t : Traced} (h : t.Inside) : (cgaPutc c t).Inside := by
  by_cases hc : attributed c &&& 0xFF = 0x09
  · have hspace := fun {t : Traced} => consPutc_space_inside (fun _ t => t) (t := t)
    have htab := hspace (hspace (hspace (hspace (hspace h))))
    rw [cgaPutc_eq, Surface.cgaPutcWith, Surface.putCharacter_tab _ hc]
    exact (finish_inside_iff htab.stores).mpr (Nat.lt_add_right _ htab.position)
  · exact cgaPutcWith_inside _ hc h

/-! ## From any position -/

/-- The calls of `cga_putc` for a sequence of characters. -/
def cgaPutcs (cs : List Word) (t : Traced) : Traced := cs.foldl (fun t c => cgaPutc c t) t

/-- After each call all stores so far were made inside the display, and the
position is inside. -/
def Safe (st : Console) (cs : List Word) : Prop :=
  ∀ before after, cs = before ++ after → before ≠ [] → (cgaPutcs before ⟨st, []⟩).Inside

/-- A first character that leads from a position outside the display back into
it: BS from the cell behind the last, CR from the row behind the last, or LF
where the position wraps around. -/
def LeadsBack (pos : Nat) (c : Word) : Prop :=
  c &&& 0xFF = 0x08 ∧ pos = CRT_SIZE ∨
    c &&& 0xFF = 0x0D ∧ pos < CRT_SIZE + CRT_COLS ∨
    c &&& 0xFF = 0x0A ∧ 65536 ≤ pos + CRT_COLS

theorem cgaPutcs_inside (cs : List Word) {t : Traced} (h : t.Inside) : (cgaPutcs cs t).Inside := by
  induction cs generalizing t with
  | nil => exact h
  | cons c cs ih => exact ih (cgaPutc_inside c h)

theorem attributed_char (c : Word) : attributed c &&& 0xFF = c &&& 0xFF := by
  unfold attributed
  split
  · rw [BitVec.and_or_distrib_right]
    exact BitVec.or_zero
  · rfl

theorem not_inside_of_store {t : Traced} {i : Nat} (hi : i ∈ t.stores) (hout : CRT_SIZE ≤ i) :
    ¬ t.Inside :=
  fun h => Nat.not_lt.mpr hout (h.stores i hi)

/-- Whether a move of the position leads inside is a matter of the position alone. -/
theorem moved_inside_iff (f : Console → Console) (st : Console) :
    ((traced.scrollIfFull (Traced.map f ⟨st, []⟩)).map moveCursor).Inside ↔
      (f st).crtPos < CRT_SIZE + CRT_COLS :=
  finish_inside_iff (t := Traced.map f ⟨st, []⟩) fun _ hi => absurd hi List.not_mem_nil

/-- Scrolling and moving the cursor keep what is recorded. -/
theorem finish_stores {t : Traced} {i : Nat} (hi : i ∈ t.stores) :
    i ∈ ((traced.scrollIfFull t).map moveCursor).stores :=
  (scrollIfFull_records t).mem hi

/-- An ordinary character is stored at the position. -/
theorem ordinary_store (step : Word → Traced → Traced) {c : Word} (t : Traced)
    (hback : attributed c &&& 0xFF ≠ 0x08) (hnewline : attributed c &&& 0xFF ≠ 0x0A)
    (hreturn : attributed c &&& 0xFF ≠ 0x0D) (htab : attributed c &&& 0xFF ≠ 0x09) :
    t.console.crtPos ∈ (traced.cgaPutcWith step c t).stores := by
  unfold Surface.cgaPutcWith Surface.putCharacter
  rw [if_neg hback, if_neg hnewline, if_neg hreturn, if_neg htab]
  apply finish_stores
  exact List.mem_append_right _ List.mem_cons_self

/-- A space is stored at the position, printed on all three devices. -/
theorem space_store (step : Word → Traced → Traced) (t : Traced) :
    t.console.crtPos ∈ (traced.consPutcWith (traced.cgaPutcWith step) 0x20 t).stores := by
  have hports := ports_sameDisplay 0x20 t.console
  have hstore := ordinary_store step (c := 0x20)
    (t.map fun st => lptPutc 0x20 (serialPutc 0x20 st)) (by decide) (by decide) (by decide)
    (by decide)
  rw [← hports.crtPos_eq]
  exact hstore

/-- The first of the five spaces of a tab. -/
theorem tab_store {c : Word} (st : Console) (hc : attributed c &&& 0xFF = 0x09) :
    st.crtPos ∈ (cgaPutc c ⟨st, []⟩).stores := by
  have hrecords := consPutcWith_records (cgaPutcWith_records fun _ => Records.refl) 0x20
  have hspace := space_store (fun _ t => t) ⟨st, []⟩
  rw [cgaPutc_eq, Surface.cgaPutcWith, Surface.putCharacter_tab _ hc]
  generalize traced.consPutcWith (traced.cgaPutcWith fun _ t => t) = step at hrecords hspace
  apply finish_stores
  exact (hrecords _).mem ((hrecords _).mem ((hrecords _).mem ((hrecords _).mem hspace)))

section Outside

variable {st : Console} (hlow : CRT_SIZE ≤ st.crtPos) (hhigh : st.crtPos < 65536)
  (step : Word → Traced → Traced) {c : Word}

include hlow

theorem backspace_outside (hc : attributed c &&& 0xFF = 0x08) :
    (traced.cgaPutcWith step c ⟨st, []⟩).Inside ↔ st.crtPos = CRT_SIZE := by
  have hsize : CRT_SIZE = 2000 := rfl
  have hcols : CRT_COLS = 80 := rfl
  have hzero : st.crtPos > 0 := by omega
  unfold Surface.cgaPutcWith Surface.putCharacter
  rw [if_pos hc, if_pos hzero]
  constructor
  · intro h
    by_contra hfar
    refine not_inside_of_store (i := st.crtPos - 1) ?_ (by omega) h
    apply finish_stores
    exact List.mem_singleton.mpr rfl
  · intro hpos
    refine (finish_inside_iff ?_).mpr ?_
    · refine setCell_stores (t := Traced.map _ ⟨st, []⟩) (fun i hi => absurd hi List.not_mem_nil) ?_ _
      change st.crtPos - 1 < CRT_SIZE
      omega
    · change st.crtPos - 1 < CRT_SIZE + CRT_COLS
      omega

include hhigh in
theorem newline_outside (hc : attributed c &&& 0xFF = 0x0A) :
    (traced.cgaPutcWith step c ⟨st, []⟩).Inside ↔ 65536 ≤ st.crtPos + CRT_COLS := by
  have hsize : CRT_SIZE = 2000 := rfl
  have hcols : CRT_COLS = 80 := rfl
  unfold Surface.cgaPutcWith Surface.putCharacter
  rw [if_neg (by rw [hc]; decide), if_pos hc, moved_inside_iff, returnCarriage, hcols, hsize]
  dsimp only
  omega

theorem carriageReturn_outside (hc : attributed c &&& 0xFF = 0x0D) :
    (traced.cgaPutcWith step c ⟨st, []⟩).Inside ↔ st.crtPos < CRT_SIZE + CRT_COLS := by
  have hsize : CRT_SIZE = 2000 := rfl
  have hcols : CRT_COLS = 80 := rfl
  unfold Surface.cgaPutcWith Surface.putCharacter
  rw [if_neg (by rw [hc]; decide), if_neg (by rw [hc]; decide), if_pos hc, moved_inside_iff,
    returnCarriage, hcols, hsize]
  dsimp only
  omega

end Outside

/-- From outside the display the first character decides. -/
theorem cgaPutc_outside {st : Console} (hlow : CRT_SIZE ≤ st.crtPos) (hhigh : st.crtPos < 65536)
    (c : Word) : (cgaPutc c ⟨st, []⟩).Inside ↔ LeadsBack st.crtPos c := by
  rw [LeadsBack, ← attributed_char c]
  by_cases hback : attributed c &&& 0xFF = 0x08
  · rw [cgaPutc_eq, backspace_outside hlow _ hback, hback]
    simp
  · by_cases hnewline : attributed c &&& 0xFF = 0x0A
    · rw [cgaPutc_eq, newline_outside hlow hhigh _ hnewline, hnewline]
      simp
    · by_cases hreturn : attributed c &&& 0xFF = 0x0D
      · rw [cgaPutc_eq, carriageReturn_outside hlow _ hreturn, hreturn]
        simp
      · have hstore : st.crtPos ∈ (cgaPutc c ⟨st, []⟩).stores := by
          by_cases htab : attributed c &&& 0xFF = 0x09
          · exact tab_store st htab
          · exact ordinary_store _ ⟨st, []⟩ hback hnewline hreturn htab
        constructor
        · exact fun h => absurd h (not_inside_of_store hstore hlow)
        · rintro (⟨h, _⟩ | ⟨h, _⟩ | ⟨h, _⟩)
          · exact absurd h hback
          · exact absurd h hreturn
          · exact absurd h hnewline

/-- From the position that `cga_init` reads back, every sequence of characters
is printed inside the display exactly when that position is inside, or nothing
is printed, or the first character leads back. -/
theorem cgaInit_safe_iff (seen : BitVec 16) (st : Console) (cs : List Word) :
    Safe (cgaInit seen st) cs ↔
      (cgaInit seen st).crtPos < CRT_SIZE ∨
        ∀ c ∈ cs.head?, LeadsBack (cgaInit seen st).crtPos c := by
  have hword : (cgaInit seen st).crtPos < 65536 := BitVec.isLt _
  generalize cgaInit seen st = st at hword
  constructor
  · intro hsafe
    rw [or_iff_not_imp_left]
    intro hout c hc
    obtain ⟨rest, rfl⟩ := List.head?_eq_some_iff.mp hc
    have hfirst := hsafe [c] rest rfl (List.cons_ne_nil c [])
    exact (cgaPutc_outside (Nat.not_lt.mp hout) hword c).mp hfirst
  · rintro hcond before after rfl hne
    obtain ⟨c, rest, rfl⟩ := List.exists_cons_of_ne_nil hne
    refine cgaPutcs_inside rest ?_
    by_cases hin : st.crtPos < CRT_SIZE
    · exact cgaPutc_inside c ⟨fun i hi => absurd hi List.not_mem_nil, hin⟩
    · exact (cgaPutc_outside (Nat.not_lt.mp hin) hword c).mpr (hcond.resolve_left hin c rfl)

/-- The adapter reads back the cell behind the last: a letter is stored there. -/
theorem cgaInit_unsafe :
    ¬ Safe (cgaInit 0xA55A ⟨fun _ => 0, fun n _ => if n = 0 then 0x07 else 0xD0, [], .cga, 0⟩)
      [0x41] := by
  intro hsafe
  have hposition := cgaInit_crtPos 0xA55A
    ⟨fun _ => 0, fun n _ => if n = 0 then 0x07 else 0xD0, [], .cga, 0⟩
  have hpos : (cgaInit 0xA55A
      ⟨fun _ => 0, fun n _ => if n = 0 then 0x07 else 0xD0, [], .cga, 0⟩).crtPos = CRT_SIZE :=
    hposition
  have hfirst := hsafe [0x41] [] rfl (List.cons_ne_nil _ _)
  rcases (cgaPutc_outside (Nat.le_of_eq hpos.symm) (by rw [hpos]; decide) 0x41).mp hfirst with
    ⟨h, _⟩ | ⟨h, _⟩ | ⟨h, _⟩
  all_goals exact absurd h (by decide)

end JOSKernel.Kern.ConsoleInit
