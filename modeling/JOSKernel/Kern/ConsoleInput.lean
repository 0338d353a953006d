import JOSKernel.General.CircularQueue
import JOSKernel.Kern.Printf

/-!
# Console input (`kern/console.c`)

The serial port and the keyboard feed a ring buffer, `cons_getc` polls both
and takes one character out.  As long as fewer characters than cells are
unread the ring is a queue of everything the devices produced.
-/

namespace JOSKernel.Kern.ConsoleInput

open JOSKernel.General.MachineInt
open JOSKernel.General.CircularQueue
open JOSKernel.Kern.ConsoleOutput
open JOSKernel.Kern.Printf
open JOSKernel.Lib.StringRoutines

/-! ## Key tables -/

def NO : Byte := 0

def SHIFT : Byte := 0x01
def CTL : Byte := 0x02
def ALT : Byte := 0x04
def CAPSLOCK : Byte := 0x08
def NUMLOCK : Byte := 0x10
def SCROLLLOCK : Byte := 0x20
def E0ESC : Byte := 0x40

def KEY_HOME : Byte := 0xE0
def KEY_END : Byte := 0xE1
def KEY_UP : Byte := 0xE2
def KEY_DN : Byte := 0xE3
def KEY_LF : Byte := 0xE4
def KEY_RT : Byte := 0xE5
def KEY_PGUP : Byte := 0xE6
def KEY_PGDN : Byte := 0xE7
def KEY_INS : Byte := 0xE8
def KEY_DEL : Byte := 0xE9

/-- A table of 256 bytes: its first entries in order, then single entries. -/
def table (first : List Byte) (single : List (Byte × Byte)) (i : Byte) : Byte :=
  (single.lookup i).getD (first.getD i.toNat NO)

def shiftcode : Byte → Byte :=
  table [] [(0x1D, CTL), (0x2A, SHIFT), (0x36, SHIFT), (0x38, ALT), (0x9D, CTL), (0xB8, ALT)]

def togglecode : Byte → Byte :=
  table [] [(0x3A, CAPSLOCK), (0x45, NUMLOCK), (0x46, SCROLLLOCK)]

/-- The cursor keys, which all maps have at the same places. -/
def cursorKeys : List (Byte × Byte) :=
  [(0xC8, KEY_UP), (0xC9, KEY_PGUP), (0xCB, KEY_LF), (0xCD, KEY_RT), (0xCF, KEY_END),
    (0xD0, KEY_DN), (0xD1, KEY_PGDN), (0xD2, KEY_INS), (0xD3, KEY_DEL)]

def normalmap : Byte → Byte :=
  table
    ([NO, 0x1B] ++ bytes "123456" ++ bytes "7890-=" ++ [0x08, 0x09] ++      -- 0x00
      bytes "qwertyui" ++ bytes "op[]" ++ [0x0A, NO] ++ bytes "as" ++       -- 0x10
      bytes "dfghjkl;" ++ bytes "'\x60" ++ [NO] ++ bytes "\\zxcv" ++        -- 0x20
      bytes "bnm,./" ++ [NO] ++ bytes "*" ++                                -- 0x30
      [NO] ++ bytes " " ++ [NO, NO, NO, NO, NO, NO] ++
      [NO, NO, NO, NO, NO, NO, NO] ++ bytes "7" ++ bytes "89-456+1" ++      -- 0x40
      bytes "230." ++ [NO, NO, NO, NO])                                     -- 0x50
    ([(0xC7, KEY_HOME), (0x9C, 0x0A), (0xB5, ascii '/')] ++ cursorKeys)

def shiftmap : Byte → Byte :=
  table
    ([NO, 0x1B] ++ bytes "!@#$%^" ++ bytes "&*()_+" ++ [0x08, 0x09] ++      -- 0x00
      bytes "QWERTYUI" ++ bytes "OP\x7b\x7d" ++ [0x0A, NO] ++ bytes "AS" ++ -- 0x10
      bytes "DFGHJKL:" ++ bytes "\"~" ++ [NO] ++ bytes "|ZXCV" ++           -- 0x20
      bytes "BNM<>?" ++ [NO] ++ bytes "*" ++                                -- 0x30
      [NO] ++ bytes " " ++ [NO, NO, NO, NO, NO, NO] ++
      [NO, NO, NO, NO, NO, NO, NO] ++ bytes "7" ++ bytes "89-456+1" ++      -- 0x40
      bytes "230." ++ [NO, NO, NO, NO])                                     -- 0x50
    ([(0xC7, KEY_HOME), (0x9C, 0x0A), (0xB5, ascii '/')] ++ cursorKeys)

/-- The macro `C`. -/
def control (x : Char) : Byte := ascii x - ascii '@'

def controls (s : String) : List Byte := s.toList.map control

def ctlmap : Byte → Byte :=
  table
    ([NO, NO, NO, NO, NO, NO, NO, NO] ++ [NO, NO, NO, NO, NO, NO, NO, NO] ++ -- 0x00
      controls "QWERTYUI" ++ controls "OP" ++ [NO, NO, 0x0D, NO] ++          -- 0x10
      controls "AS" ++ controls "DFGHJKL" ++ [NO] ++                         -- 0x20
      [NO, NO, NO] ++ controls "\\ZXCV" ++
      controls "BNM" ++ [NO, NO] ++ controls "/" ++ [NO, NO])                -- 0x30
    ([(0x97, KEY_HOME), (0xB5, control '/')] ++ cursorKeys)

/-- `charcode[i]` for `i` below four. -/
def charcode (i : Word) : Byte → Byte :=
  if i = 0 then normalmap else if i = 1 then shiftmap else ctlmap

/-! ## Devices -/

/-- What the device routines work on: the console and `static uint32_t shift`. -/
structure Devices where
  console : Console
  shift : Word

def readPort (port : Nat) (d : Devices) : Byte × Devices :=
  let (data, st) := inb port d.console
  (data, { d with console := st })

def serialProcData (d : Devices) : Option (Int × Devices) :=
  let (lsr, d) := readPort (COM1 + 5) d
  if lsr &&& 0x01 = 0 then some (-1, d)
  else
    let (data, d) := readPort COM1 d
    some (data.toNat, d)

/-- The letter-case swap of `CAPSLOCK`. -/
def swapCase (c : Int) : Int :=
  if (ascii 'a').toNat ≤ c ∧ c ≤ (ascii 'z').toNat then c + ((ascii 'A').toNat - (ascii 'a').toNat)
  else if (ascii 'A').toNat ≤ c ∧ c ≤ (ascii 'Z').toNat then
    c + ((ascii 'a').toNat - (ascii 'A').toNat)
  else c

/-- Ctrl-Alt-Del: reboot. -/
def reboot (d : Devices) : Option Devices := do
  let (_, st) ← cprintf (cstr (bytes "Rebooting!" ++ [0x0A])) [] d.console
  return { d with console := outb 0x92 0x03 st }

/-- A key that was pressed, its `E0` escape already in `data`. -/
def keyPressed (data : Byte) (d : Devices) : Option (Int × Devices) := do
  let shift := (d.shift ||| ofUChar (shiftcode data)) ^^^ ofUChar (togglecode data)
  let d := { d with shift := shift }
  let c : Int := (charcode (shift &&& ofUChar (CTL ||| SHIFT)) data).toNat
  let c := if shift &&& ofUChar CAPSLOCK ≠ 0 then swapCase c else c
  if ~~~shift &&& ofUChar (CTL ||| ALT) = 0 ∧ c = KEY_DEL.toNat then
    return (c, ← reboot d)
  else return (c, d)

def kbdProcData (d : Devices) : Option (Int × Devices) :=
  let (status, d) := readPort 0x64 d
  if status &&& 0x01 = 0 then some (-1, d)
  else
    let (data, d) := readPort 0x60 d
    if data = 0xE0 then some (0, { d with shift := d.shift ||| ofUChar E0ESC })
    else if data &&& 0x80 ≠ 0 then
      let data := if d.shift &&& ofUChar E0ESC ≠ 0 then data else data &&& 0x7F
      some (0, { d with shift := d.shift &&& ~~~ofUChar (shiftcode data ||| E0ESC) })
    else if d.shift &&& ofUChar E0ESC ≠ 0 then
      keyPressed (data ||| 0x80) { d with shift := d.shift &&& ~~~ofUChar E0ESC }
    else keyPressed data d

/-! ## The input buffer -/

def CONSBUFSIZE : Nat := 512

/-- The state behind the input functions. -/
structure Kernel where
  devices : Devices
  cons : RingBuffer Byte
  serialExists : Bool

/-- Feed the characters of a device into the buffer until it has no more data.
The fuel bounds how many times the device is asked. -/
def consIntr (proc : Devices → Option (Int × Devices)) : Nat → Kernel → Option Kernel
  | 0, _ => none
  | fuel + 1, k => do
      let (c, d) ← proc k.devices
      let k := { k with devices := d }
      if c = -1 then some k
      else if c = 0 then consIntr proc fuel k
      else consIntr proc fuel { k with cons := push CONSBUFSIZE k.cons (BitVec.ofInt 8 c) }

def serialIntr (fuel : Nat) (k : Kernel) : Option Kernel :=
  if k.serialExists then consIntr serialProcData fuel k else some k

def kbdIntr (fuel : Nat) (k : Kernel) : Option Kernel := consIntr kbdProcData fuel k

/-- The next input character, or 0 if none waiting. -/
def consGetc (fuel : Nat) (k : Kernel) : Option (Byte × Kernel) := do
  let k ← serialIntr fuel k
  let k ← kbdIntr fuel k
  match pop? CONSBUFSIZE k.cons with
  | some (c, cons) => some (c, { k with cons := cons })
  | none => some (0, k)

/-! ## What the devices produce -/

/-- The non-zero characters a device yields until it has no more data. -/
def drain (proc : Devices → Option (Int × Devices)) : Nat → Devices → Option (List Byte × Devices)
  | 0, _ => none
  | fuel + 1, d => do
      let (c, d) ← proc d
      if c = -1 then some ([], d)
      else
        let (cs, d) ← drain proc fuel d
        some (if c = 0 then cs else BitVec.ofInt 8 c :: cs, d)

/-- The loop pushes exactly those characters. -/
theorem consIntr_eq_drain (proc : Devices → Option (Int × Devices)) (fuel : Nat) (k : Kernel) :
    consIntr proc fuel k = (drain proc fuel k.devices).map fun r =>
      { k with devices := r.2, cons := r.1.foldl (push CONSBUFSIZE) k.cons } := by
  induction fuel generalizing k with
  | zero => rfl
  | succ fuel ih =>
      rw [consIntr, drain]
      cases hproc : proc k.devices with
      | none => rfl
      | some r =>
          obtain ⟨c, d⟩ := r
          simp only [Option.bind_eq_bind, Option.bind_some]
          split
          · rfl
          · split
            · rw [ih]
              cases drain proc fuel d <;> rfl
            · rw [ih]
              cases drain proc fuel d <;> rfl

/-- A device routine returns -1 or a character. -/
def Yields (proc : Devices → Option (Int × Devices)) : Prop :=
  ∀ d c d', proc d = some (c, d') → c = -1 ∨ 0 ≤ c ∧ c ≤ 255

theorem serialProcData_yields : Yields serialProcData := by
  intro d c d' h
  rw [serialProcData] at h
  dsimp only at h
  split at h
  · cases h
    exact Or.inl rfl
  · cases h
    have := (readPort COM1 (readPort (COM1 + 5) d).2).1.isLt
    right
    omega

theorem swapCase_range {c : Int} (hlow : 0 ≤ c) (hhigh : c ≤ 255) :
    0 ≤ swapCase c ∧ swapCase c ≤ 255 := by
  have hcodes : (ascii 'a').toNat = 97 ∧ (ascii 'z').toNat = 122 ∧ (ascii 'A').toNat = 65 ∧
      (ascii 'Z').toNat = 90 := by decide
  rw [swapCase]
  split
  · omega
  · split <;> omega

theorem keyPressed_range {data : Byte} {d d' : Devices} {c : Int}
    (h : keyPressed data d = some (c, d')) : 0 ≤ c ∧ c ≤ 255 := by
  rw [keyPressed] at h
  generalize (d.shift ||| ofUChar (shiftcode data)) ^^^ ofUChar (togglecode data) = shift at h
  have hcode := (charcode (shift &&& ofUChar (CTL ||| SHIFT)) data).isLt
  generalize (charcode (shift &&& ofUChar (CTL ||| SHIFT)) data).toNat = code at h hcode
  have hrange : 0 ≤ (if shift &&& ofUChar CAPSLOCK ≠ 0 then swapCase code else (code : Int)) ∧
      (if shift &&& ofUChar CAPSLOCK ≠ 0 then swapCase code else (code : Int)) ≤ 255 := by
    split
    · exact swapCase_range (by omega) (by omega)
    · omega
  generalize (if shift &&& ofUChar CAPSLOCK ≠ 0 then swapCase code else (code : Int)) = ch
    at h hrange
  split at h
  · obtain ⟨d₁, _, h⟩ := Option.bind_eq_some_iff.mp h
    cases h
    exact hrange
  · cases h
    exact hrange

theorem kbdProcData_yields : Yields kbdProcData := by
  intro d c d' h
  rw [kbdProcData] at h
  dsimp only at h
  split at h
  · cases h
    exact Or.inl rfl
  · right
    split at h
    · cases h
      decide
    · split at h
      · cases h
        decide
      · split at h
        · exact keyPressed_range h
        · exact keyPressed_range h

/-- No zero is ever pushed. -/
theorem drain_nonzero {proc : Devices → Option (Int × Devices)} (hproc : Yields proc) {fuel : Nat}
    {d d' : Devices} {cs : List Byte} (h : drain proc fuel d = some (cs, d')) : 0 ∉ cs := by
  induction fuel generalizing d cs with
  | zero => cases h
  | succ fuel ih =>
      obtain ⟨⟨c, d₁⟩, hc, h⟩ := Option.bind_eq_some_iff.mp h
      dsimp only at h
      split at h
      · cases h
        exact List.not_mem_nil
      · rename_i hdata
        obtain ⟨⟨rest, d₂⟩, hrest, h⟩ := Option.bind_eq_some_iff.mp h
        have hrange := (hproc _ _ _ hc).resolve_left hdata
        cases h
        split
        · exact ih hrest
        · rename_i hzero
          intro hmem
          rcases List.mem_cons.mp hmem with hhead | htail
          · have hbyte := congrArg BitVec.toNat hhead
            simp only [BitVec.toNat_ofInt, Nat.reducePow] at hbyte
            have : (0 : Byte).toNat = 0 := rfl
            omega
          · exact ih hrest htail

/-! ## Histories -/

/-- A kernel together with what has happened since it started: the characters
the devices produced, the non-zero values `cons_getc` returned, and the most
characters that were ever unread at once. -/
structure History where
  kernel : Kernel
  received : List Byte
  delivered : List Byte
  peak : Nat

/-- The buffer is zero-initialised, whatever the devices hold. -/
def boot (console : Console) (serialExists : Bool) : Kernel :=
  ⟨⟨console, 0⟩, ⟨fun _ => 0, 0, 0⟩, serialExists⟩

def History.start (k : Kernel) : History := ⟨k, [], [], 0⟩

/-- The devices have produced `cs`, and the kernel is now `k`. -/
def History.receive (h : History) (cs : List Byte) (k : Kernel) : History where
  kernel := k
  received := h.received ++ cs
  delivered := h.delivered
  peak := max h.peak (h.received.length + cs.length - h.delivered.length)

/-- `cons_getc` has returned `c`. -/
def History.deliver (h : History) (c : Byte) (k : Kernel) : History :=
  { h with kernel := k, delivered := if c = 0 then h.delivered else h.delivered ++ [c] }

/-- What `serial_intr` reads from its device. -/
def serialInput (fuel : Nat) (k : Kernel) : List Byte :=
  if k.serialExists then ((drain serialProcData fuel k.devices).map Prod.fst).getD [] else []

def kbdInput (fuel : Nat) (k : Kernel) : List Byte :=
  ((drain kbdProcData fuel k.devices).map Prod.fst).getD []

inductive Call where
  | serialIntr | kbdIntr | consGetc

/-- One call, which takes the kernel where the function takes it. -/
def History.step (fuel : Nat) (h : History) : Call → Option History
  | .serialIntr => (serialIntr fuel h.kernel).map (h.receive (serialInput fuel h.kernel))
  | .kbdIntr => (kbdIntr fuel h.kernel).map (h.receive (kbdInput fuel h.kernel))
  | .consGetc => do
      let polled ← serialIntr fuel h.kernel
      let (c, k) ← consGetc fuel h.kernel
      let h := h.receive (serialInput fuel h.kernel) polled
      some ((h.receive (kbdInput fuel polled) k).deliver c k)

/-- Any interleaving of calls. -/
def History.run (fuel : Nat) : List Call → History → Option History
  | [], h => some h
  | call :: calls, h => do
      let h ← h.step fuel call
      History.run fuel calls h

/-! ## The queue -/

/-- The ring represents what has been received and not delivered. -/
structure Queued (h : History) (q : List Byte) : Prop where
  ring : Represents CONSBUFSIZE h.kernel.cons q
  received_eq : h.received = h.delivered ++ q
  nonzero : 0 ∉ q
  peak_ge : q.length ≤ h.peak

theorem queued_start (console : Console) (serialExists : Bool) :
    Queued (History.start (boot console serialExists)) [] where
  ring := Represents.nil (show 0 < 512 by decide) rfl
  received_eq := rfl
  nonzero := List.not_mem_nil
  peak_ge := Nat.zero_le _

/-- Characters that fit are queued. -/
theorem Queued.receive {h : History} {q : List Byte} (hq : Queued h q) {cs : List Byte}
    (hcs : 0 ∉ cs) {k : Kernel} (hk : k.cons = cs.foldl (push CONSBUFSIZE) h.kernel.cons)
    (hpeak : (h.receive cs k).peak ≤ CONSBUFSIZE) : Queued (h.receive cs k) (q ++ cs) := by
  have hbacklog : q.length + cs.length ≤ (h.receive cs k).peak := by
    have hlength := congrArg List.length hq.received_eq
    rw [List.length_append] at hlength
    refine Nat.le_trans ?_ (Nat.le_max_right _ _)
    omega
  constructor
  · show Represents CONSBUFSIZE k.cons (q ++ cs)
    rw [hk]
    exact hq.ring.pushAll cs (Nat.le_trans hbacklog hpeak)
  · show h.received ++ cs = h.delivered ++ (q ++ cs)
    rw [hq.received_eq, List.append_assoc]
  · intro hmem
    rcases List.mem_append.mp hmem with hold | hnew
    · exact hq.nonzero hold
    · exact hcs hnew
  · rw [List.length_append]
    exact hbacklog

theorem serialIntr_spec {fuel : Nat} {k k' : Kernel} (h : serialIntr fuel k = some k') :
    0 ∉ serialInput fuel k ∧ k'.cons = (serialInput fuel k).foldl (push CONSBUFSIZE) k.cons := by
  rw [serialIntr] at h
  rw [serialInput]
  split at h
  · rename_i hexists
    rw [consIntr_eq_drain] at h
    obtain ⟨⟨cs, d⟩, hdrain, rfl⟩ := Option.map_eq_some_iff.mp h
    rw [if_pos hexists, hdrain]
    exact ⟨drain_nonzero serialProcData_yields hdrain, rfl⟩
  · rename_i hexists
    cases h
    rw [if_neg hexists]
    exact ⟨List.not_mem_nil, rfl⟩

theorem kbdIntr_spec {fuel : Nat} {k k' : Kernel} (h : kbdIntr fuel k = some k') :
    0 ∉ kbdInput fuel k ∧ k'.cons = (kbdInput fuel k).foldl (push CONSBUFSIZE) k.cons := by
  rw [kbdIntr, consIntr_eq_drain] at h
  obtain ⟨⟨cs, d⟩, hdrain, rfl⟩ := Option.map_eq_some_iff.mp h
  rw [kbdInput, hdrain]
  exact ⟨drain_nonzero kbdProcData_yields hdrain, rfl⟩

/-- The end of `cons_getc`, on a ring that is not full: the head of the queue
is delivered, or the queue was empty and the value is zero. -/
theorem Queued.take {h : History} {q : List Byte} (hq : Queued h q) (hroom : q.length < CONSBUFSIZE) :
    (q = [] ∧ pop? CONSBUFSIZE h.kernel.cons = none) ∨
      ∃ c rest cons, q = c :: rest ∧ c ≠ 0 ∧ pop? CONSBUFSIZE h.kernel.cons = some (c, cons) ∧
        ∀ k, k.cons = cons → Queued (h.deliver c k) rest := by
  cases q with
  | nil => exact Or.inl ⟨rfl, hq.ring.pop?_nil⟩
  | cons c rest =>
      obtain ⟨cons, hpop, hrest⟩ := hq.ring.pop?_cons hroom
      have hc : c ≠ 0 := by
        rintro rfl
        exact hq.nonzero List.mem_cons_self
      refine Or.inr ⟨c, rest, cons, rfl, hc, hpop, ?_⟩
      rintro k rfl
      constructor
      · exact hrest
      · show h.received = (if c = 0 then h.delivered else h.delivered ++ [c]) ++ rest
        rw [if_neg hc, hq.received_eq, List.append_assoc, List.singleton_append]
      · exact fun hmem => hq.nonzero (List.mem_cons_of_mem _ hmem)
      · exact Nat.le_trans (Nat.le_succ _) hq.peak_ge

/-! ## Runs -/

/-- A call of `cons_getc` that keeps the backlog below the number of cells
delivers the head of the queue, or returns zero on an empty queue. -/
theorem Queued.getc {fuel : Nat} {h h' : History} {q : List Byte} (hq : Queued h q)
    (hstep : h.step fuel .consGetc = some h') (hpeak : h'.peak ≤ CONSBUFSIZE - 1) :
    ∃ c k q', consGetc fuel h.kernel = some (c, k) ∧ h'.kernel = k ∧ Queued h' q' ∧
      (c = 0 → q' = []) := by
  obtain ⟨polled, hserial, hstep⟩ := Option.bind_eq_some_iff.mp hstep
  obtain ⟨⟨c, k⟩, hgetc, hstep⟩ := Option.bind_eq_some_iff.mp hstep
  obtain ⟨full, hkbd, hpop⟩ : ∃ full, kbdIntr fuel polled = some full ∧
      (match pop? CONSBUFSIZE full.cons with
      | some (c, cons) => some (c, { full with cons := cons })
      | none => some (0, full)) = some (c, k) := by
    rw [consGetc, hserial] at hgetc
    exact Option.bind_eq_some_iff.mp hgetc
  obtain ⟨hserialInput, hserialCons⟩ := serialIntr_spec hserial
  obtain ⟨hkbdInput, hkbdCons⟩ := kbdIntr_spec hkbd
  cases hstep
  have hsize : CONSBUFSIZE = 512 := rfl
  have hreceived : ((h.receive (serialInput fuel h.kernel) polled).receive (kbdInput fuel polled)
      full).peak ≤ CONSBUFSIZE - 1 := hpeak
  have hfirst := hq.receive hserialInput hserialCons
    (Nat.le_trans (Nat.le_trans (Nat.le_max_left _ _) hreceived) (Nat.sub_le _ _))
  have hsecond := hfirst.receive hkbdInput hkbdCons (Nat.le_trans hreceived (Nat.sub_le _ _))
  have hroom := Nat.le_trans hsecond.peak_ge hreceived
  refine ⟨c, k, ?_⟩
  rcases hsecond.take (by omega) with ⟨hempty, hnone⟩ | ⟨c', rest, cons, _, hc, hsome, hrest⟩
  · have hnone' : pop? CONSBUFSIZE full.cons = none := hnone
    rw [hnone'] at hpop
    cases hpop
    refine ⟨[], hgetc, rfl, ?_, fun _ => rfl⟩
    rw [← hempty]
    exact ⟨hsecond.ring, hsecond.received_eq, hsecond.nonzero, hsecond.peak_ge⟩
  · have hsome' : pop? CONSBUFSIZE full.cons = some (c', cons) := hsome
    rw [hsome'] at hpop
    cases hpop
    exact ⟨rest, hgetc, rfl, hrest { full with cons := cons } rfl, fun hzero => absurd hzero hc⟩

theorem Queued.step {fuel : Nat} {h h' : History} {q : List Byte} (hq : Queued h q) {call : Call}
    (hstep : h.step fuel call = some h') (hpeak : h'.peak ≤ CONSBUFSIZE - 1) :
    ∃ q', Queued h' q' := by
  have hle : h'.peak ≤ CONSBUFSIZE := Nat.le_trans hpeak (Nat.sub_le _ _)
  cases call with
  | serialIntr =>
      obtain ⟨k, hk, rfl⟩ := Option.map_eq_some_iff.mp hstep
      obtain ⟨hinput, hcons⟩ := serialIntr_spec hk
      exact ⟨_, hq.receive hinput hcons hle⟩
  | kbdIntr =>
      obtain ⟨k, hk, rfl⟩ := Option.map_eq_some_iff.mp hstep
      obtain ⟨hinput, hcons⟩ := kbdIntr_spec hk
      exact ⟨_, hq.receive hinput hcons hle⟩
  | consGetc =>
      obtain ⟨_, _, q', _, _, hq', _⟩ := hq.getc hstep hpeak
      exact ⟨q', hq'⟩

/-- The peak never falls. -/
theorem peak_le_step {fuel : Nat} {h h' : History} {call : Call}
    (hstep : h.step fuel call = some h') : h.peak ≤ h'.peak := by
  cases call with
  | serialIntr | kbdIntr =>
      obtain ⟨k, _, rfl⟩ := Option.map_eq_some_iff.mp hstep
      exact Nat.le_max_left _ _
  | consGetc =>
      obtain ⟨polled, _, hstep⟩ := Option.bind_eq_some_iff.mp hstep
      obtain ⟨⟨c, k⟩, _, hstep⟩ := Option.bind_eq_some_iff.mp hstep
      cases hstep
      exact Nat.le_trans (Nat.le_max_left _ _) (Nat.le_max_left _ _)

theorem peak_le_run {fuel : Nat} {calls : List Call} {h h' : History}
    (hrun : h.run fuel calls = some h') : h.peak ≤ h'.peak := by
  induction calls generalizing h with
  | nil =>
      cases hrun
      exact Nat.le_refl _
  | cons call calls ih =>
      obtain ⟨h₁, hstep, hrest⟩ := Option.bind_eq_some_iff.mp hrun
      exact Nat.le_trans (peak_le_step hstep) (ih hrest)

/-- A run in which the backlog stays below the number of cells is a run of a
queue. -/
theorem Queued.run {fuel : Nat} {calls : List Call} {h h' : History} {q : List Byte}
    (hq : Queued h q) (hrun : h.run fuel calls = some h') (hpeak : h'.peak ≤ CONSBUFSIZE - 1) :
    ∃ q', Queued h' q' := by
  induction calls generalizing h q with
  | nil =>
      cases hrun
      exact ⟨q, hq⟩
  | cons call calls ih =>
      obtain ⟨h₁, hstep, hrest⟩ := Option.bind_eq_some_iff.mp hrun
      obtain ⟨q₁, hq₁⟩ := hq.step hstep (Nat.le_trans (peak_le_run hrest) hpeak)
      exact ih hq₁ hrest

/-- In every run whose backlog stays below the size of the buffer, what
`cons_getc` has returned and what still lies between the indices is exactly
what the devices produced, in order. -/
theorem console_queue (console : Console) (serialExists : Bool) (fuel : Nat) (calls : List Call)
    {h : History} (hrun : (History.start (boot console serialExists)).run fuel calls = some h)
    (hpeak : h.peak ≤ CONSBUFSIZE - 1) :
    h.received = h.delivered ++ pending CONSBUFSIZE h.kernel.cons ∧
      h.kernel.cons.rpos < CONSBUFSIZE ∧ h.kernel.cons.wpos < CONSBUFSIZE := by
  obtain ⟨q, hq⟩ := (queued_start console serialExists).run hrun hpeak
  have hsize : CONSBUFSIZE = 512 := rfl
  have hroom := Nat.le_trans hq.peak_ge hpeak
  rw [hq.ring.pending_eq (by omega)]
  exact ⟨hq.received_eq, hq.ring.rpos_lt, hq.ring.wpos_lt⟩

/-- A console whose serial port holds `text`. -/
def arrived (text : List Byte) : Console where
  mem := fun _ => 0
  inbs := fun n port =>
    if port = COM1 + 5 then (if n < 2 * text.length then 1 else 0)
    else if port = COM1 then text.getD (n / 2) 0 else 0
  outbs := []
  adapter := .cga
  crtPos := 0

/-- Of three characters the first two are read, and the third is left. -/
theorem console_queue_typed :
    ∃ h, (History.start (boot (arrived (bytes "abc")) true)).run 4
        [.serialIntr, .consGetc, .consGetc] = some h ∧
      h.delivered = bytes "ab" ∧ pending CONSBUFSIZE h.kernel.cons = bytes "c" := by
  have hruns : ((History.start (boot (arrived (bytes "abc")) true)).run 4
      [.serialIntr, .consGetc, .consGetc]).map
        (fun h => (h.received, h.delivered, h.peak)) = some (bytes "abc", bytes "ab", 3) := by
    decide +kernel
  obtain ⟨h, hrun, hh⟩ := Option.map_eq_some_iff.mp hruns
  simp only [Prod.mk.injEq] at hh
  obtain ⟨hreceived, hdelivered, hpeak⟩ := hh
  have hle : h.peak ≤ CONSBUFSIZE - 1 := by
    rw [hpeak]
    decide
  have hqueue := (console_queue (arrived (bytes "abc")) true 4 _ hrun hle).1
  rw [hreceived, hdelivered, show bytes "abc" = bytes "ab" ++ bytes "c" by decide] at hqueue
  exact ⟨h, hrun, hdelivered, (List.append_cancel_left hqueue).symm⟩

/-- In every such run a zero from `cons_getc` means that everything the devices
produced has been delivered. -/
theorem consGetc_zero_drained (console : Console) (serialExists : Bool) (fuel : Nat)
    (calls : List Call) {h h' : History}
    (hrun : (History.start (boot console serialExists)).run fuel calls = some h)
    (hstep : h.step fuel .consGetc = some h') (hpeak : h'.peak ≤ CONSBUFSIZE - 1)
    (hzero : (consGetc fuel h.kernel).map Prod.fst = some 0) : h'.received = h'.delivered := by
  obtain ⟨q, hq⟩ := (queued_start console serialExists).run hrun
    (Nat.le_trans (peak_le_step hstep) hpeak)
  obtain ⟨c, k, q', hgetc, _, hq', hempty⟩ := hq.getc hstep hpeak
  rw [hgetc] at hzero
  have hreceived := hq'.received_eq
  rw [hempty (Option.some.inj hzero), List.append_nil] at hreceived
  exact hreceived

/-- Both characters have been read, and the next read returns zero. -/
theorem consGetc_zero_drained_typed :
    ∃ h h', (History.start (boot (arrived (bytes "ab")) true)).run 3
        [.serialIntr, .consGetc, .consGetc] = some h ∧
      h.step 3 .consGetc = some h' ∧ h'.delivered = bytes "ab" ∧ h'.received = h'.delivered := by
  have hruns : ((History.start (boot (arrived (bytes "ab")) true)).run 3
      [.serialIntr, .consGetc, .consGetc]).bind (fun h => (h.step 3 .consGetc).bind fun h' =>
        (consGetc 3 h.kernel).map fun r => (h'.delivered, h'.peak, r.1)) =
          some (bytes "ab", 2, 0) := by decide +kernel
  obtain ⟨h, hrun, hh⟩ := Option.bind_eq_some_iff.mp hruns
  obtain ⟨h', hstep, hh⟩ := Option.bind_eq_some_iff.mp hh
  obtain ⟨r, hgetc, hh⟩ := Option.map_eq_some_iff.mp hh
  simp only [Prod.mk.injEq] at hh
  obtain ⟨hdelivered, hpeak, hzero⟩ := hh
  have hle : h'.peak ≤ CONSBUFSIZE - 1 := by
    rw [hpeak]
    decide
  have hreturned : (consGetc 3 h.kernel).map Prod.fst = some 0 := by
    rw [hgetc, Option.map_some, hzero]
  exact ⟨h, h', hrun, hstep, hdelivered,
    consGetc_zero_drained (arrived (bytes "ab")) true 3 _ hrun hstep hle hreturned⟩

/-! ## A burst of input -/

/-- A console whose serial port holds `count` letters. -/
def burst (count : Nat) : Console where
  mem := fun _ => 0
  inbs := fun n port =>
    if port = COM1 + 5 then (if n < 2 * count then 1 else 0) else if port = COM1 then 0x61 else 0
  outbs := []
  adapter := .cga
  crtPos := 0

/-- One letter of a burst takes two reads. -/
theorem burst_succ (count : Nat) :
    (inb COM1 (inb (COM1 + 5) (burst (count + 1))).2).2 = burst count := by
  have hinbs : (fun n => (burst (count + 1)).inbs (n + 1 + 1)) = (burst count).inbs := by
    funext n port
    have hreads : n + 1 + 1 < 2 * (count + 1) ↔ n < 2 * count := by omega
    simp only [burst, hreads]
  unfold inb
  dsimp only
  rw [hinbs]
  rfl

theorem burst_ready (count : Nat) :
    (burst count).inbs 0 (COM1 + 5) = if 0 < count then 1 else 0 := by
  cases count with
  | zero => rfl
  | succ count =>
      have hreads : 0 < 2 * (count + 1) := by omega
      simp [burst, hreads]

theorem serialProcData_burst (count : Nat) (shift : Word) :
    serialProcData ⟨burst (count + 1), shift⟩ = some (0x61, ⟨burst count, shift⟩) := by
  have hready := burst_ready (count + 1)
  rw [if_pos (Nat.succ_pos count)] at hready
  have hdata : (1 : Byte) &&& 0x01 ≠ 0 := by decide
  rw [serialProcData, ← burst_succ count]
  simp only [readPort, inb, hready]
  rw [if_neg hdata]
  rfl

theorem serialProcData_burst_end (shift : Word) :
    serialProcData ⟨burst 0, shift⟩ = some (-1, ⟨(inb (COM1 + 5) (burst 0)).2, shift⟩) := by
  have hready := burst_ready 0
  rw [if_neg (Nat.lt_irrefl 0)] at hready
  have hnone : (0 : Byte) &&& 0x01 = 0 := by decide
  rw [serialProcData]
  simp only [readPort, inb, hready]
  rw [if_pos hnone]

theorem drain_burst (count : Nat) (shift : Word) :
    drain serialProcData (count + 1) ⟨burst count, shift⟩ =
      some (List.replicate count 0x61, ⟨(inb (COM1 + 5) (burst 0)).2, shift⟩) := by
  induction count with
  | zero =>
      rw [drain, serialProcData_burst_end]
      rfl
  | succ count ih =>
      rw [drain, serialProcData_burst]
      simp only [Option.bind_eq_bind, Option.bind_some, ih]
      rfl

/-- After a burst the keyboard has nothing to add. -/
theorem drain_kbd_burst (fuel : Nat) (shift : Word) :
    ∃ d, drain kbdProcData (fuel + 1) ⟨(inb (COM1 + 5) (burst 0)).2, shift⟩ = some ([], d) := by
  have hstatus : (burst 0).inbs 1 0x64 = 0 := by simp [burst, COM1]
  have hnone : (0 : Byte) &&& 0x01 = 0 := by decide
  have hproc : ∃ d, kbdProcData ⟨(inb (COM1 + 5) (burst 0)).2, shift⟩ = some (-1, d) := by
    rw [kbdProcData]
    simp only [readPort, inb, hstatus]
    rw [if_pos hnone]
    exact ⟨_, rfl⟩
  obtain ⟨d, hd⟩ := hproc
  rw [drain, hd]
  exact ⟨d, rfl⟩

/-- The letters of a burst that fills the buffer. -/
def fullBurst : List Byte := List.replicate CONSBUFSIZE 0x61

/-- The kernel that has received them all. -/
def burstKernel (d : Devices) : Kernel :=
  ⟨d, fullBurst.foldl (push CONSBUFSIZE) ⟨fun _ => 0, 0, 0⟩, true⟩

theorem serialIntr_burst :
    serialIntr (CONSBUFSIZE + 1) (boot (burst CONSBUFSIZE) true) =
        some (burstKernel ⟨(inb (COM1 + 5) (burst 0)).2, 0⟩) ∧
      serialInput (CONSBUFSIZE + 1) (boot (burst CONSBUFSIZE) true) = fullBurst := by
  have hexists : (boot (burst CONSBUFSIZE) true).serialExists = true := rfl
  have hdrain : drain serialProcData (CONSBUFSIZE + 1) (boot (burst CONSBUFSIZE) true).devices =
      some (fullBurst, ⟨(inb (COM1 + 5) (burst 0)).2, 0⟩) := drain_burst CONSBUFSIZE 0
  rw [serialIntr, serialInput, if_pos hexists, if_pos hexists, consIntr_eq_drain, hdrain]
  exact ⟨rfl, rfl⟩

theorem burstKernel_full (d : Devices) : pop? CONSBUFSIZE (burstKernel d).cons = none := by
  have hring : Represents CONSBUFSIZE ⟨fun _ => (0 : Byte), 0, 0⟩ [] :=
    Represents.nil (show 0 < 512 by decide) rfl
  have hlength : fullBurst.length = CONSBUFSIZE := by rw [fullBurst, List.length_replicate]
  have hempty := hring.pop?_filled hlength
  dsimp only [burstKernel]
  rw [hempty]

/-- A burst of as many characters as there are cells, between two reads: they
are all received, and the next read returns zero. -/
theorem consGetc_burst :
    ∃ h, (History.start (boot (burst CONSBUFSIZE) true)).step (CONSBUFSIZE + 1) .consGetc = some h ∧
      (consGetc (CONSBUFSIZE + 1) (boot (burst CONSBUFSIZE) true)).map Prod.fst = some 0 ∧
      h.received = fullBurst ∧ h.delivered = [] := by
  obtain ⟨hserial, hinput⟩ := serialIntr_burst
  obtain ⟨d, hdrain⟩ := drain_kbd_burst CONSBUFSIZE 0
  generalize hpolled : burstKernel ⟨(inb (COM1 + 5) (burst 0)).2, 0⟩ = polled at hserial
  have hdevices : polled.devices = ⟨(inb (COM1 + 5) (burst 0)).2, 0⟩ := by rw [← hpolled]; rfl
  have hkbd : kbdIntr (CONSBUFSIZE + 1) polled = some { polled with devices := d } := by
    rw [kbdIntr, consIntr_eq_drain, hdevices, hdrain]
    rfl
  have hkbdInput : kbdInput (CONSBUFSIZE + 1) polled = [] := by
    rw [kbdInput, hdevices, hdrain]
    rfl
  have hpop : pop? CONSBUFSIZE polled.cons = none := by
    rw [← hpolled]
    exact burstKernel_full _
  have hgetc : consGetc (CONSBUFSIZE + 1) (boot (burst CONSBUFSIZE) true) =
      some (0, { polled with devices := d }) := by
    rw [consGetc, hserial]
    simp only [Option.bind_eq_bind, Option.bind_some, hkbd, hpop]
  refine ⟨((History.start (boot (burst CONSBUFSIZE) true)).receive fullBurst polled).receive []
    { polled with devices := d } |>.deliver 0 { polled with devices := d }, ?_, ?_, ?_, rfl⟩
  · have hkernel : (History.start (boot (burst CONSBUFSIZE) true)).kernel =
        boot (burst CONSBUFSIZE) true := rfl
    rw [History.step, hkernel, hserial, hgetc, hinput]
    simp only [Option.bind_eq_bind, Option.bind_some, hkbdInput]
  · rw [hgetc]
    rfl
  · show ([] ++ fullBurst) ++ [] = fullBurst
    rw [List.nil_append, List.append_nil]

end JOSKernel.Kern.ConsoleInput
