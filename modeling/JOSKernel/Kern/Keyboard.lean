import JOSKernel.General.PressLog
import JOSKernel.Kern.ConsoleInput

/-!
# Key events (`kbd_proc_data` in `kern/console.c`)

The keyboard controller sends a press or a release of a key as one byte, or as
two behind the `E0` prefix.  `kbd_proc_data` takes one byte at a time and keeps
what it has to remember in the bits of `shift`: the locks count presses, and a
modifier is a latch of its two keys.
-/

namespace JOSKernel.Kern.Keyboard

open JOSKernel.General.MachineInt
open JOSKernel.General.PressLog
open JOSKernel.Kern.ConsoleOutput
open JOSKernel.Kern.ConsoleInput
open JOSKernel.Kern.Printf
open JOSKernel.Lib.Printfmt
open JOSKernel.Lib.StringRoutines

/-! ## Keys -/

/-- A base key, or a key behind the `E0` prefix. -/
structure Key where
  extended : Bool
  base : Byte
  base_lt : base.toNat < 0x60
deriving DecidableEq

/-- The index of a key in the tables. -/
def Key.place (key : Key) : Byte := if key.extended then key.base ||| 0x80 else key.base

def keyOf (extended : Bool) (n : Fin 0x60) : Key where
  extended := extended
  base := BitVec.ofNat 8 n
  base_lt := by
    rw [BitVec.toNat_ofNat, Nat.mod_eq_of_lt (Nat.lt_trans n.isLt (by decide))]
    exact n.isLt

theorem forall_key {P : Key → Prop} (h : ∀ extended n, P (keyOf extended n)) (key : Key) : P key := by
  have hkey := h key.extended ⟨key.base.toNat, key.base_lt⟩
  simp only [keyOf, BitVec.ofNat_toNat, BitVec.setWidth_eq] at hkey
  exact hkey

/-- The bytes that the controller sends for an event. -/
def eventBytes (e : Press Key) : List Byte :=
  (if e.key.extended then [0xE0] else []) ++ [if e.down then e.key.base else e.key.base ||| 0x80]

inductive Modifier where
  | shift | ctl | alt

def Modifier.mask : Modifier → Byte
  | .shift => SHIFT
  | .ctl => CTL
  | .alt => ALT

/-- The keys of a modifier, of which the right ones of `CTL` and `ALT` are extended. -/
def Modifier.isKey : Modifier → Key → Bool
  | .shift, key => !key.extended && (key.base == 0x2A || key.base == 0x36)
  | .ctl, key => key.base == 0x1D
  | .alt, key => key.base == 0x38

inductive Lock where
  | caps | num | scroll

def Lock.mask : Lock → Byte
  | .caps => CAPSLOCK
  | .num => NUMLOCK
  | .scroll => SCROLLLOCK

def Lock.key : Lock → Key
  | .caps => ⟨false, 0x3A, by decide⟩
  | .num => ⟨false, 0x45, by decide⟩
  | .scroll => ⟨false, 0x46, by decide⟩

/-! ## Bytes -/

/-- The character of a key, under the modifiers and locks in `shift`. -/
def charOf (shift : Word) (place : Byte) : Int :=
  let c : Int := (charcode (shift &&& ofUChar (CTL ||| SHIFT)) place).toNat
  if shift &&& ofUChar CAPSLOCK ≠ 0 then swapCase c else c

/-- `shift` after a key has been pressed. -/
def shiftPressed (place : Byte) (shift : Word) : Word :=
  (shift ||| ofUChar (shiftcode place)) ^^^ ofUChar (togglecode place)

/-- `shift` after a key has been released. -/
def shiftReleased (place : Byte) (shift : Word) : Word :=
  shift &&& ~~~ofUChar (shiftcode place ||| E0ESC)

/-- What one byte does: the value that is returned, and the new `shift`. -/
def procByte (data : Byte) (shift : Word) : Int × Word :=
  if data = 0xE0 then (0, shift ||| ofUChar E0ESC)
  else if data &&& 0x80 ≠ 0 then
    (0, shiftReleased (if shift &&& ofUChar E0ESC ≠ 0 then data else data &&& 0x7F) shift)
  else if shift &&& ofUChar E0ESC ≠ 0 then
    let shift := shiftPressed (data ||| 0x80) (shift &&& ~~~ofUChar E0ESC)
    (charOf shift (data ||| 0x80), shift)
  else
    let shift := shiftPressed data shift
    (charOf shift data, shift)

def procBytes : List Byte → Word → List Int × Word
  | [], shift => ([], shift)
  | data :: rest, shift =>
      let r := procByte data shift
      let rs := procBytes rest r.2
      (r.1 :: rs.1, rs.2)

theorem procBytes_append (bytes bytes' : List Byte) (shift : Word) :
    procBytes (bytes ++ bytes') shift =
      ((procBytes bytes shift).1 ++ (procBytes bytes' (procBytes bytes shift).2).1,
        (procBytes bytes' (procBytes bytes shift).2).2) := by
  induction bytes generalizing shift with
  | nil => rfl
  | cons data rest ih =>
      rw [List.cons_append, procBytes, procBytes, ih]
      rfl

theorem procByte_release {data : Byte} (hplain : data ≠ 0xE0) (hhigh : data &&& 0x80 ≠ 0)
    (shift : Word) : procByte data shift =
      (0, shiftReleased (if shift &&& ofUChar E0ESC ≠ 0 then data else data &&& 0x7F) shift) := by
  rw [procByte, if_neg hplain, if_pos hhigh]

theorem procByte_base {data : Byte} (hplain : data ≠ 0xE0) (hlow : data &&& 0x80 = 0)
    {shift : Word} (hescape : shift &&& ofUChar E0ESC = 0) : procByte data shift =
      (charOf (shiftPressed data shift) data, shiftPressed data shift) := by
  rw [procByte, if_neg hplain, if_neg (not_not.mpr hlow), if_neg (not_not.mpr hescape)]

theorem procByte_extended {data : Byte} (hplain : data ≠ 0xE0) (hlow : data &&& 0x80 = 0)
    {shift : Word} (hescape : shift &&& ofUChar E0ESC ≠ 0) : procByte data shift =
      (charOf (shiftPressed (data ||| 0x80) (shift &&& ~~~ofUChar E0ESC)) (data ||| 0x80),
        shiftPressed (data ||| 0x80) (shift &&& ~~~ofUChar E0ESC)) := by
  rw [procByte, if_neg hplain, if_neg (not_not.mpr hlow), if_pos hescape]

/-- The controller has a byte for the next call. -/
structure Offers (console : Console) (data : Byte) : Prop where
  ready : console.inbs 0 0x64 &&& 0x01 ≠ 0
  data : console.inbs 1 0x60 = data

/-- One call of `kbd_proc_data` on each console; only `shift` is kept between them. -/
def typed : List Console → Word → Option (List Int × Word)
  | [], shift => some ([], shift)
  | console :: consoles, shift => do
      let (c, d) ← kbdProcData ⟨console, shift⟩
      let (cs, shift) ← typed consoles d.shift
      some (c :: cs, shift)

theorem reboot_eq (console : Console) (shift : Word) :
    ∃ console', reboot ⟨console, shift⟩ = some ⟨console', shift⟩ := by
  have hstream : ∃ out, stream (cstr (bytes "Rebooting!" ++ [0x0A])) [] = some ([], out) :=
    ⟨_, rfl⟩
  obtain ⟨out, hout⟩ := hstream
  refine ⟨outb 0x92 0x03 (feed cputchar out console), ?_⟩
  simp only [reboot, cprintf_eq hout, Option.bind_eq_bind, Option.bind_some, Option.pure_def]

theorem keyPressed_eq (data : Byte) (console : Console) (shift : Word) :
    ∃ console', keyPressed data ⟨console, shift⟩ =
      some (charOf (shiftPressed data shift) data, ⟨console', shiftPressed data shift⟩) := by
  obtain ⟨console', hreboot⟩ := reboot_eq console (shiftPressed data shift)
  have hpressed : keyPressed data ⟨console, shift⟩ =
      if ~~~shiftPressed data shift &&& ofUChar (CTL ||| ALT) = 0 ∧
          charOf (shiftPressed data shift) data = KEY_DEL.toNat then
        (reboot ⟨console, shiftPressed data shift⟩).bind fun d =>
          some (charOf (shiftPressed data shift) data, d)
      else some (charOf (shiftPressed data shift) data, ⟨console, shiftPressed data shift⟩) := rfl
  rw [hpressed]
  split
  · exact ⟨console', by rw [hreboot, Option.bind_some]⟩
  · exact ⟨console, rfl⟩

/-- A call on an offered byte does what the byte does. -/
theorem kbdProcData_eq {console : Console} {data : Byte} (h : Offers console data) (shift : Word) :
    ∃ console', kbdProcData ⟨console, shift⟩ =
      some ((procByte data shift).1, ⟨console', (procByte data shift).2⟩) := by
  have hready := h.ready
  have hdata := h.data
  simp only [kbdProcData, readPort, inb, procByte, hready, if_false, Nat.zero_add, hdata]
  by_cases hplain : data = 0xE0
  · rw [if_pos hplain, if_pos hplain]
    exact ⟨_, rfl⟩
  rw [if_neg hplain, if_neg hplain]
  by_cases hrelease : data &&& 0x80 ≠ 0
  · rw [if_pos hrelease, if_pos hrelease]
    exact ⟨_, rfl⟩
  rw [if_neg hrelease, if_neg hrelease]
  by_cases hescape : shift &&& ofUChar E0ESC ≠ 0
  · rw [if_pos hescape, if_pos hescape]
    exact keyPressed_eq _ _ _
  · rw [if_neg hescape, if_neg hescape]
    exact keyPressed_eq _ _ _

theorem typed_eq {consoles : List Console} {data : List Byte}
    (h : List.Forall₂ Offers consoles data) (shift : Word) :
    typed consoles shift = some (procBytes data shift) := by
  induction h generalizing shift with
  | nil => rfl
  | cons hoffers _ ih =>
      obtain ⟨console', hcall⟩ := kbdProcData_eq hoffers shift
      simp only [typed, hcall, Option.bind_eq_bind, Option.bind_some, ih, procBytes]

/-! ## Bits -/

def Modifier.bit : Modifier → Nat
  | .shift => 0
  | .ctl => 1
  | .alt => 2

def Lock.bit : Lock → Nat
  | .caps => 3
  | .num => 4
  | .scroll => 5

theorem and_bit_ne_zero {mask : Byte} {i : Nat} (hmask : ofUChar mask = BitVec.twoPow 32 i)
    (hi : i < 32) (x : Word) : x &&& ofUChar mask ≠ 0 ↔ x.getLsbD i = true := by
  rw [hmask, BitVec.and_twoPow]
  cases hbit : x.getLsbD i with
  | false => simp
  | true =>
      simp only [if_true, ne_eq, iff_true]
      intro hzero
      have := congrArg (fun y : Word => y.getLsbD i) hzero
      simp [hi] at this

theorem Modifier.and_mask (m : Modifier) (x : Word) :
    x &&& ofUChar m.mask ≠ 0 ↔ x.getLsbD m.bit = true := by
  cases m
  all_goals exact and_bit_ne_zero rfl (by decide) x

theorem Lock.and_mask (l : Lock) (x : Word) :
    x &&& ofUChar l.mask ≠ 0 ↔ x.getLsbD l.bit = true := by
  cases l
  all_goals exact and_bit_ne_zero rfl (by decide) x

theorem escape_and_mask (x : Word) : x &&& ofUChar E0ESC ≠ 0 ↔ x.getLsbD 6 = true :=
  and_bit_ne_zero rfl (by decide) x

/-- The tables know the keys of the modifiers. -/
theorem Modifier.in_tables (m : Modifier) (key : Key) :
    (shiftcode key.place).getLsbD m.bit = m.isKey key ∧
      (togglecode key.place).getLsbD m.bit = false := by
  refine forall_key (P := fun key => (shiftcode key.place).getLsbD m.bit = m.isKey key ∧
    (togglecode key.place).getLsbD m.bit = false) ?_ key
  cases m
  all_goals decide +kernel

theorem Lock.in_tables (l : Lock) (key : Key) :
    (shiftcode key.place).getLsbD l.bit = false ∧
      (togglecode key.place).getLsbD l.bit = (key == l.key) := by
  refine forall_key (P := fun key => (shiftcode key.place).getLsbD l.bit = false ∧
    (togglecode key.place).getLsbD l.bit = (key == l.key)) ?_ key
  cases l
  all_goals decide +kernel

theorem escape_not_in_tables (key : Key) :
    (shiftcode key.place).getLsbD 6 = false ∧ (togglecode key.place).getLsbD 6 = false := by
  refine forall_key (P := fun key => (shiftcode key.place).getLsbD 6 = false ∧
    (togglecode key.place).getLsbD 6 = false) ?_ key
  decide +kernel

/-- The value that a press returns. -/
def eventResults (e : Press Key) (shift : Word) : List Int :=
  (if e.key.extended then [0] else []) ++ [if e.down then charOf shift e.key.place else 0]

def shiftAfter (e : Press Key) (shift : Word) : Word :=
  if e.down then shiftPressed e.key.place shift else shiftReleased e.key.place shift

theorem Key.base_bits (key : Key) : key.base ≠ 0xE0 ∧ key.base &&& 0x80 = 0 ∧
    key.base ||| 0x80 ≠ 0xE0 ∧ (key.base ||| 0x80) &&& 0x80 ≠ 0 ∧
    (key.base ||| 0x80) &&& 0x7F = key.base := by
  refine forall_key (P := fun key => key.base ≠ 0xE0 ∧ key.base &&& 0x80 = 0 ∧
    key.base ||| 0x80 ≠ 0xE0 ∧ (key.base ||| 0x80) &&& 0x80 ≠ 0 ∧
    (key.base ||| 0x80) &&& 0x7F = key.base) ?_ key
  decide

/-- Setting the escape bit is undone by clearing it. -/
theorem clear_set_escape {shift : Word} (h : shift.getLsbD 6 = false) :
    (shift ||| ofUChar E0ESC) &&& ~~~ofUChar E0ESC = shift := by
  have hescape : ofUChar E0ESC = BitVec.twoPow 32 6 := rfl
  refine BitVec.eq_of_getLsbD_eq fun i hi => ?_
  rw [hescape, BitVec.getLsbD_and, BitVec.getLsbD_or, BitVec.getLsbD_not, BitVec.getLsbD_twoPow]
  by_cases h6 : 6 = i
  · subst h6
    rw [h]
    decide
  · simp [hi, h6]

/-- A release clears the escape bit in any case. -/
theorem released_set_escape (place : Byte) (shift : Word) :
    shiftReleased place (shift ||| ofUChar E0ESC) = shiftReleased place shift := by
  have hescape : E0ESC = BitVec.twoPow 8 6 := rfl
  refine BitVec.eq_of_getLsbD_eq fun i hi => ?_
  simp only [shiftReleased, ofUChar, hescape, BitVec.getLsbD_and, BitVec.getLsbD_or,
    BitVec.getLsbD_not, BitVec.getLsbD_setWidth, BitVec.getLsbD_twoPow]
  by_cases h6 : 6 = i
  · subst h6
    simp
  · simp [h6]

theorem set_escape (shift : Word) : (shift ||| ofUChar E0ESC) &&& ofUChar E0ESC ≠ 0 := by
  have hescape : ofUChar E0ESC = BitVec.twoPow 32 6 := rfl
  rw [escape_and_mask, hescape]
  simp

theorem escape_clear {shift : Word} (h : shift.getLsbD 6 = false) : shift &&& ofUChar E0ESC = 0 := by
  by_contra hset
  rw [← ne_eq, escape_and_mask, h] at hset
  cases hset

/-- The bytes of an event act on `shift` once, at its end. -/
theorem procBytes_event (e : Press Key) {shift : Word} (hescape : shift &&& ofUChar E0ESC = 0) :
    procBytes (eventBytes e) shift = (eventResults e (shiftAfter e shift), shiftAfter e shift) := by
  obtain ⟨⟨extended, base, hlt⟩, down⟩ := e
  obtain ⟨hplain, hlow, hplain', hhigh, hbase⟩ := Key.base_bits ⟨extended, base, hlt⟩
  have hset := set_escape shift
  have hclear : (shift ||| ofUChar E0ESC) &&& ~~~ofUChar E0ESC = shift :=
    clear_set_escape (Bool.eq_false_iff.mpr fun hbit => (escape_and_mask shift).mpr hbit hescape)
  cases extended with
  | false =>
      cases down with
      | true =>
          show ([(procByte base shift).1], (procByte base shift).2) = _
          rw [procByte_base hplain hlow hescape]
          rfl
      | false =>
          show ([(procByte (base ||| 0x80) shift).1], (procByte (base ||| 0x80) shift).2) = _
          rw [procByte_release hplain' hhigh, if_neg (not_not.mpr hescape), hbase]
          rfl
  | true =>
      cases down with
      | true =>
          show ([0, (procByte base (shift ||| ofUChar E0ESC)).1],
            (procByte base (shift ||| ofUChar E0ESC)).2) = _
          rw [procByte_extended hplain hlow hset, hclear]
          rfl
      | false =>
          show ([0, (procByte (base ||| 0x80) (shift ||| ofUChar E0ESC)).1],
            (procByte (base ||| 0x80) (shift ||| ofUChar E0ESC)).2) = _
          rw [procByte_release hplain' hhigh, if_pos hset, released_set_escape]
          rfl

/-! ## Histories -/

/-- What `shift` says about the events so far. -/
structure Decodes (log : List (Press Key)) (shift : Word) : Prop where
  modifier : ∀ m : Modifier, shift.getLsbD m.bit = latest m.isKey log
  lock : ∀ l : Lock, shift.getLsbD l.bit = (presses l.key log % 2 == 1)
  escape : shift.getLsbD 6 = false

theorem decodes_start : Decodes [] 0 where
  modifier m := by cases m <;> rfl
  lock l := by cases l <;> rfl
  escape := rfl

theorem getLsbD_pressed (place : Byte) (shift : Word) {i : Nat} (hi : i < 32) :
    (shiftPressed place shift).getLsbD i =
      ((shift.getLsbD i || (shiftcode place).getLsbD i) ^^ (togglecode place).getLsbD i) := by
  simp [shiftPressed, ofUChar, hi]

theorem getLsbD_released (place : Byte) (shift : Word) {i : Nat} (hi : i < 32) :
    (shiftReleased place shift).getLsbD i =
      (shift.getLsbD i && !((shiftcode place).getLsbD i || E0ESC.getLsbD i)) := by
  simp [shiftReleased, ofUChar, hi]

/-- A modifier bit follows the presses and releases of its keys. -/
theorem modifier_after (m : Modifier) (e : Press Key) (shift : Word) :
    (shiftAfter e shift).getLsbD m.bit =
      if m.isKey e.key then e.down else shift.getLsbD m.bit := by
  obtain ⟨hkey, htoggle⟩ := m.in_tables e.key
  have hbit : m.bit < 32 ∧ E0ESC.getLsbD m.bit = false := by cases m <;> decide
  cases hdown : e.down with
  | true =>
      rw [shiftAfter, if_pos hdown, getLsbD_pressed _ _ hbit.1, hkey, htoggle]
      cases m.isKey e.key <;> simp
  | false =>
      rw [shiftAfter, hdown, if_neg Bool.false_ne_true, getLsbD_released _ _ hbit.1, hkey, hbit.2]
      cases m.isKey e.key <;> simp

/-- A lock bit is flipped by the presses of its key. -/
theorem lock_after (l : Lock) (e : Press Key) (shift : Word) :
    (shiftAfter e shift).getLsbD l.bit = (shift.getLsbD l.bit ^^ (e.down && e.key == l.key)) := by
  obtain ⟨hkey, htoggle⟩ := l.in_tables e.key
  have hbit : l.bit < 32 ∧ E0ESC.getLsbD l.bit = false := by cases l <;> decide
  cases hdown : e.down with
  | true =>
      rw [shiftAfter, if_pos hdown, getLsbD_pressed _ _ hbit.1, hkey, htoggle]
      simp
  | false =>
      rw [shiftAfter, hdown, if_neg Bool.false_ne_true, getLsbD_released _ _ hbit.1, hkey, hbit.2]
      simp

theorem escape_after (e : Press Key) {shift : Word} (h : shift.getLsbD 6 = false) :
    (shiftAfter e shift).getLsbD 6 = false := by
  obtain ⟨hkey, htoggle⟩ := escape_not_in_tables e.key
  cases hdown : e.down with
  | true => rw [shiftAfter, if_pos hdown, getLsbD_pressed _ _ (by decide), hkey, htoggle, h]; rfl
  | false =>
      rw [shiftAfter, hdown, if_neg Bool.false_ne_true, getLsbD_released _ _ (by decide), h]
      rfl

/-- One more event. -/
theorem Decodes.step {log : List (Press Key)} {shift : Word} (h : Decodes log shift)
    (e : Press Key) : Decodes (log ++ [e]) (shiftAfter e shift) where
  modifier m := by rw [modifier_after, latest_append_one, h.modifier m]
  lock l := by
    rw [lock_after, presses_append_one, h.lock l]
    rcases Nat.mod_two_eq_zero_or_one (presses l.key log) with hparity | hparity
    all_goals cases e.down && e.key == l.key <;> simp [Nat.add_mod, hparity]
  escape := escape_after e h.escape

/-- The bytes of a log of events. -/
def logBytes (log : List (Press Key)) : List Byte := log.flatMap eventBytes

/-- Any log of events is decoded. -/
theorem procBytes_decodes (log : List (Press Key)) :
    Decodes log (procBytes (logBytes log) 0).2 := by
  induction log using List.reverseRecOn with
  | nil => exact decodes_start
  | append_singleton log e ih =>
      have hbytes : logBytes (log ++ [e]) = logBytes log ++ eventBytes e := by simp [logBytes]
      rw [hbytes, procBytes_append, procBytes_event e (escape_clear ih.escape)]
      exact ih.step e

/-! ## Events -/

/-- What one event does after the events of `log`. -/
structure Handled (log : List (Press Key)) (e : Press Key) (before : Word) (cs : List Int)
    (after : Word) : Prop where
  escape : after &&& ofUChar E0ESC = 0
  results : cs = eventResults e after
  locks : ∀ l : Lock, after &&& ofUChar l.mask ≠ 0 ↔ presses l.key (log ++ [e]) % 2 = 1
  modifiers : ∀ m : Modifier, m.isKey e.key = true →
    (after &&& ofUChar m.mask ≠ 0 ↔ e.down = true)
  other_modifiers : ∀ m : Modifier, m.isKey e.key = false →
    (after &&& ofUChar m.mask ≠ 0 ↔ before &&& ofUChar m.mask ≠ 0)
  other_locks : ∀ l : Lock, ¬ (e.down = true ∧ e.key = l.key) →
    (after &&& ofUChar l.mask ≠ 0 ↔ before &&& ofUChar l.mask ≠ 0)

theorem Decodes.handled {log : List (Press Key)} {shift : Word} (h : Decodes log shift)
    (e : Press Key) :
    Handled log e shift (eventResults e (shiftAfter e shift)) (shiftAfter e shift) where
  escape := escape_clear (escape_after e h.escape)
  results := rfl
  locks l := by
    rw [l.and_mask, (h.step e).lock l, beq_iff_eq]
  modifiers m hkey := by
    rw [m.and_mask, modifier_after, if_pos hkey]
  other_modifiers m hkey := by
    rw [m.and_mask, m.and_mask, modifier_after, hkey, if_neg Bool.false_ne_true]
  other_locks l hkey := by
    have hother : (e.down && e.key == l.key) = false := by
      rw [Bool.eq_false_iff, ne_eq, Bool.and_eq_true, beq_iff_eq]
      exact hkey
    rw [l.and_mask, l.and_mask, lock_after, hother, Bool.xor_false]

/-- After any events the bytes of one more event do what the event is meant to. -/
theorem kbdProcData_events (log : List (Press Key)) (e : Press Key) {consoles consoles' : List Console}
    (hlog : List.Forall₂ Offers consoles (logBytes log))
    (hevent : List.Forall₂ Offers consoles' (eventBytes e)) :
    ∃ cs before cs' after, typed consoles 0 = some (cs, before) ∧
      typed consoles' before = some (cs', after) ∧ Handled log e before cs' after := by
  have hdecodes := procBytes_decodes log
  refine ⟨_, _, _, _, typed_eq hlog 0, typed_eq hevent _, ?_⟩
  rw [procBytes_event e (escape_clear hdecodes.escape)]
  exact hdecodes.handled e

/-- A console whose keyboard offers one byte. -/
def holding (data : Byte) : Console where
  mem := fun _ => 0
  inbs := fun _ port => if port = 0x64 then 1 else data
  outbs := []
  adapter := .cga
  crtPos := 0

theorem holding_offers (data : List Byte) : List.Forall₂ Offers (data.map holding) data := by
  induction data with
  | nil => exact .nil
  | cons byte rest ih =>
      have hready : (1 : Byte) &&& 0x01 ≠ 0 := by decide
      exact .cons ⟨hready, rfl⟩ ih

def leftShift : Key := ⟨false, 0x2A, by decide⟩

def rightShift : Key := ⟨false, 0x36, by decide⟩

/-- `Caps Lock`, then the letter `a`. -/
theorem kbdProcData_events_caps :
    ∃ cs before cs' after,
      typed ((logBytes [⟨Lock.caps.key, true⟩]).map holding) 0 = some (cs, before) ∧
      typed ((eventBytes ⟨⟨false, 0x1E, by decide⟩, true⟩).map holding) before = some (cs', after) ∧
      Handled [⟨Lock.caps.key, true⟩] ⟨⟨false, 0x1E, by decide⟩, true⟩ before cs' after :=
  kbdProcData_events _ _ (holding_offers _) (holding_offers _)

/-! ## Modifiers as latches -/

/-- A modifier is set while one of its keys is held and was the last of them to
be used; as long as its keys are not held together it is set while one is held. -/
theorem modifier_latched (log : List (Press Key)) (m : Modifier) {consoles : List Console}
    (hlog : List.Forall₂ Offers consoles (logBytes log)) :
    ∃ cs shift, typed consoles 0 = some (cs, shift) ∧
      (shift &&& ofUChar m.mask ≠ 0 ↔
        (∃ key, m.isKey key = true ∧ held key log = true) ∧ latest m.isKey log = true) ∧
      (Paired log → Apart m.isKey log →
        (shift &&& ofUChar m.mask ≠ 0 ↔ ∃ key, m.isKey key = true ∧ held key log = true)) := by
  have hbit := (procBytes_decodes log).modifier m
  refine ⟨_, _, typed_eq hlog 0, ?_, ?_⟩
  · rw [m.and_mask, hbit]
    exact ⟨fun hlatest => ⟨held_of_latest hlatest, hlatest⟩, fun h => h.2⟩
  · intro hpaired hapart
    rw [m.and_mask, hbit]
    exact latest_iff_held hpaired hapart

/-- The left shift key is pressed and released, then the right one is pressed. -/
def shiftsInTurn : List (Press Key) := [⟨leftShift, true⟩, ⟨leftShift, false⟩, ⟨rightShift, true⟩]

theorem paired_shiftsInTurn : Paired shiftsInTurn := by
  show Paired ([] ++ [_] ++ [_] ++ [_])
  rw [paired_append_one, paired_append_one, paired_append_one]
  exact ⟨⟨⟨paired_nil, by decide⟩, by decide⟩, by decide⟩

theorem apart_shiftsInTurn : Apart Modifier.shift.isKey shiftsInTurn := by
  have hnone (key : Key) : held key [] = false := rfl
  show Apart _ ([] ++ [_] ++ [_] ++ [_])
  rw [apart_append_one, apart_append_one, apart_append_one]
  refine ⟨⟨⟨apart_nil _, ?_⟩, ?_⟩, ?_⟩
  · intro _ _ key _ hheld
    rw [hnone] at hheld
    cases hheld
  · intro _ hdown
    cases hdown
  · intro _ _ key _ hheld
    by_cases hleft : leftShift = key
    · subst hleft
      exact absurd hheld (by decide)
    · rw [held_append_other hleft, held_append_other hleft, hnone] at hheld
      cases hheld

theorem modifier_latched_shifts :
    ∃ cs shift, typed ((logBytes shiftsInTurn).map holding) 0 = some (cs, shift) ∧
      shift &&& ofUChar SHIFT ≠ 0 ∧
      (shift &&& ofUChar SHIFT ≠ 0 ↔
        ∃ key, Modifier.shift.isKey key = true ∧ held key shiftsInTurn = true) := by
  obtain ⟨cs, shift, htyped, _, hheld⟩ :=
    modifier_latched shiftsInTurn .shift (holding_offers (logBytes shiftsInTurn))
  have hiff := hheld paired_shiftsInTurn apart_shiftsInTurn
  exact ⟨cs, shift, htyped, hiff.mpr ⟨rightShift, rfl, rfl⟩, hiff⟩

/-- Both shift keys are pressed, and the left one is released. -/
def oneShiftLeft : List (Press Key) := [⟨leftShift, true⟩, ⟨rightShift, true⟩, ⟨leftShift, false⟩]

theorem paired_oneShiftLeft : Paired oneShiftLeft := by
  show Paired ([] ++ [_] ++ [_] ++ [_])
  rw [paired_append_one, paired_append_one, paired_append_one]
  exact ⟨⟨⟨paired_nil, by decide⟩, by decide⟩, by decide⟩

/-- One shift key is held, but `SHIFT` is clear. -/
theorem shift_not_held :
    ¬ ∀ (log : List (Press Key)) (m : Modifier) (consoles : List Console) (cs : List Int)
      (shift : Word), Paired log → List.Forall₂ Offers consoles (logBytes log) →
      typed consoles 0 = some (cs, shift) →
      (shift &&& ofUChar m.mask ≠ 0 ↔ ∃ key, m.isKey key = true ∧ held key log = true) := by
  intro hall
  have hoffers := holding_offers (logBytes oneShiftLeft)
  have hclaim := hall oneShiftLeft .shift _ (procBytes (logBytes oneShiftLeft) 0).1
    (procBytes (logBytes oneShiftLeft) 0).2 paired_oneShiftLeft hoffers (typed_eq hoffers 0)
  rw [Modifier.and_mask, (procBytes_decodes oneShiftLeft).modifier] at hclaim
  exact absurd (hclaim.mpr ⟨rightShift, rfl, rfl⟩) (by decide)

end JOSKernel.Kern.Keyboard
