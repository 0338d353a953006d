import JOSKernel.Kern.ConsoleAnswers
import JOSKernel.Kern.ConsoleInit
import JOSKernel.Kern.Printf
import JOSKernel.Lib.FormatText

/-!
# The serial line (`kern/console.c`)

`serial_init` programs the registers of the port, two of which share their
address with others until the divisor latch is closed again.  From then on what
is written to the first address is transmitted, and nothing that the console
prints changes the line.
-/

namespace JOSKernel.Kern.SerialLine

open JOSKernel.General.MachineInt
open JOSKernel.Kern.ConsoleAnswers
open JOSKernel.Kern.ConsoleInit
open JOSKernel.Kern.ConsoleOutput hiding cgaPutc cgaPutcs
open JOSKernel.Kern.ConsolePorts
open JOSKernel.Kern.Printf
open JOSKernel.Lib.FormatText
open JOSKernel.Lib.Printfmt
open JOSKernel.Lib.StringRoutines

def COM_RX : Nat := 0
def COM_DLL : Nat := 0
def COM_DLM : Nat := 1
def COM_IER : Nat := 1
def COM_IER_RDI : Byte := 0x01
def COM_IIR : Nat := 2
def COM_FCR : Nat := 2
def COM_LCR : Nat := 3
def COM_LCR_DLAB : Byte := 0x80
def COM_LCR_WLEN8 : Byte := 0x03
def COM_MCR : Nat := 4
def COM_LSR : Nat := 5

/-- `serial_init`, with the value it gives to `serial_exists`. -/
def serialInit (st : Console) : Bool × Console :=
  -- Turn off the FIFO
  let st := outb (COM1 + COM_FCR) 0 st
  -- Set speed; requires DLAB latch
  let st := outb (COM1 + COM_LCR) COM_LCR_DLAB st
  let st := outb (COM1 + COM_DLL) (BitVec.ofNat 8 (115200 / 9600)) st
  let st := outb (COM1 + COM_DLM) 0 st
  -- 8 data bits, 1 stop bit, parity off; turn off DLAB latch
  let st := outb (COM1 + COM_LCR) (COM_LCR_WLEN8 &&& ~~~COM_LCR_DLAB) st
  -- No modem controls
  let st := outb (COM1 + COM_MCR) 0 st
  -- Enable rcv interrupts
  let st := outb (COM1 + COM_IER) COM_IER_RDI st
  -- Serial port doesn't exist if COM_LSR returns 0xFF
  let (lsr, st) := inb (COM1 + COM_LSR) st
  let (_, st) := inb (COM1 + COM_IIR) st
  let (_, st) := inb (COM1 + COM_RX) st
  (decide (lsr ≠ 0xFF), st)

def kbdInit (st : Console) : Console := st

/-- `cons_init`; `seen` is what `cga_init` finds in the display memory. -/
def consInit (seen : BitVec 16) (st : Console) : Option (Bool × Console) := do
  let st := cgaInit seen st
  let st := kbdInit st
  let (serialExists, st) := serialInit st
  if serialExists then some (serialExists, st)
  else do
    let (_, st) ← cprintf (cstr (bytes "Serial port does not exist!" ++ [10])) [] st
    some (serialExists, st)

/-! ## The device -/

/-- The registers of a serial port that can be written, and what it has transmitted. -/
structure Uart where
  ier : Byte
  fcr : Byte
  lcr : Byte
  mcr : Byte
  dll : Byte
  dlm : Byte
  sent : List Byte

def Uart.latched (u : Uart) : Bool := u.lcr &&& COM_LCR_DLAB != 0

/-- One write to a port of the machine. -/
def Uart.write (u : Uart) (out : Nat × Byte) : Uart :=
  if out.1 = COM1 then
    if u.latched then { u with dll := out.2 } else { u with sent := u.sent ++ [out.2] }
  else if out.1 = COM1 + COM_IER then
    if u.latched then { u with dlm := out.2 } else { u with ier := out.2 }
  else if out.1 = COM1 + COM_FCR then { u with fcr := out.2 }
  else if out.1 = COM1 + COM_LCR then { u with lcr := out.2 }
  else if out.1 = COM1 + COM_MCR then { u with mcr := out.2 }
  else u

def Uart.after (u : Uart) (outbs : List (Nat × Byte)) : Uart := outbs.foldl Uart.write u

/-- 9600 baud, 8 data bits, no parity, 1 stop bit, no FIFO, receive interrupts. -/
def Uart.configured (sent : List Byte) : Uart where
  ier := COM_IER_RDI
  fcr := 0
  lcr := COM_LCR_WLEN8
  mcr := 0
  dll := 12
  dlm := 0
  sent := sent

theorem Uart.after_append (u : Uart) (outbs outbs' : List (Nat × Byte)) :
    u.after (outbs ++ outbs') = (u.after outbs).after outbs' := List.foldl_append

/-- A configured port transmits what it is sent, and no output port changes its line. -/
theorem after_output {sent : List Byte} {outbs : List (Nat × Byte)}
    (h : ∀ out ∈ outbs, OutputPort out.1) :
    (Uart.configured sent).after outbs = Uart.configured (sent ++ sentTo COM1 outbs) := by
  induction outbs generalizing sent with
  | nil => exact congrArg Uart.configured (List.append_nil sent).symm
  | cons out outbs ih =>
      obtain ⟨port, data⟩ := out
      rw [List.forall_mem_cons] at h
      have hwrite : (Uart.configured sent).write (port, data) =
          Uart.configured (sent ++ sentTo COM1 [(port, data)]) := by
        have hport := h.1
        simp only [OutputPort, List.mem_cons, List.not_mem_nil, or_false] at hport
        rcases hport with rfl | rfl | rfl | rfl | rfl | rfl | rfl
        · simp [Uart.write, Uart.latched, Uart.configured, sentTo, COM_LCR_WLEN8, COM_LCR_DLAB]
        all_goals exact congrArg Uart.configured (List.append_nil sent).symm
      rw [Uart.after, List.foldl_cons, hwrite]
      rw [← Uart.after, ih h.2, List.append_assoc, ← sentTo_append]
      rfl

/-! ## Initialisation -/

/-- The writes of `cga_init` do not reach the port. -/
theorem cgaInit_outbs (seen : BitVec 16) (st : Console) (u : Uart) :
    ∃ outbs, (cgaInit seen st).outbs = st.outbs ++ outbs ∧ u.after outbs = u := by
  refine ⟨[((found seen).addr6845, 14), ((found seen).addr6845, 15)], ?_, ?_⟩
  · unfold cgaInit found
    split
    · simp [inb, outb]
    · simp [inb, outb]
  · unfold found
    split
    · rfl
    · rfl

/-- The writes of `serial_init` configure the port, whatever state it was left in. -/
theorem serialInit_outbs (st : Console) (u : Uart) :
    ∃ outbs, (serialInit st).2.outbs = st.outbs ++ outbs ∧
      u.after outbs = Uart.configured u.sent := by
  refine ⟨[(COM1 + 2, 0), (COM1 + 3, 0x80), (COM1, 12), (COM1 + 1, 0), (COM1 + 3, 0x03),
    (COM1 + 4, 0), (COM1 + 1, 0x01)], ?_, ?_⟩
  · simp [serialInit, inb, outb, COM_FCR, COM_LCR, COM_DLL, COM_DLM, COM_MCR, COM_IER,
      COM_LCR_DLAB, COM_LCR_WLEN8, COM_IER_RDI]
  · simp [Uart.after, Uart.write, Uart.latched, Uart.configured, COM1, COM_FCR, COM_LCR, COM_MCR,
      COM_IER, COM_LCR_DLAB, COM_LCR_WLEN8, COM_IER_RDI]

/-- What `cons_init` prints about a port that is not there. -/
def noticeText (serialExists : Bool) : List Byte :=
  if serialExists then [] else bytes "Serial port does not exist!" ++ [10]

/-- The devices behind `cga_init` and `serial_init`. -/
def initialized (seen : BitVec 16) (st : Console) : Bool × Console :=
  serialInit (kbdInit (cgaInit seen st))

theorem consInit_eq (seen : BitVec 16) (st : Console) :
    consInit seen st = some ((initialized seen st).1,
      feed cputchar ((noticeText (initialized seen st).1).map ofChar) (initialized seen st).2) := by
  have hnotice : Prints (bytes "Serial port does not exist!" ++ [10]) []
      (bytes "Serial port does not exist!" ++ [10]) := Prints.plain (by decide)
  obtain ⟨serialExists, st', hstart⟩ :
      ∃ serialExists st', initialized seen st = (serialExists, st') :=
    ⟨_, _, rfl⟩
  have hserial : serialInit (kbdInit (cgaInit seen st)) = (serialExists, st') := hstart
  rw [hstart, consInit]
  simp only [hserial]
  cases serialExists with
  | true => rfl
  | false =>
      rw [if_neg Bool.false_ne_true, cprintf_eq hnotice.stream_eq]
      rfl

/-- What is printed on an initialized console is transmitted. -/
theorem initialized_transmits (seen : BitVec 16) (st : Console) (u : Uart) (cs : List Word) :
    ∃ outbs, (feed cputchar cs (initialized seen st).2).outbs = st.outbs ++ outbs ∧
      u.after outbs = Uart.configured (u.sent ++ cs.flatMap portBytes) := by
  obtain ⟨display, hdisplay, hquiet⟩ := cgaInit_outbs seen st u
  obtain ⟨line, hline, hconfigured⟩ := serialInit_outbs (kbdInit (cgaInit seen st)) u
  have hstart : (initialized seen st).2.outbs = st.outbs ++ (display ++ line) := by
    rw [← List.append_assoc, ← hdisplay]
    exact hline
  obtain ⟨printed, hprinted, hports⟩ := (Extends.feed cs (initialized seen st).2).sent
  have hsent := cputchars_sends .serial cs (initialized seen st).2
  have hbytes : sentTo COM1 printed = cs.flatMap portBytes := by
    rw [Sends, show cputchars _ _ = feed cputchar _ _ from rfl, hprinted, sentTo_append] at hsent
    exact List.append_cancel_left hsent
  refine ⟨display ++ line ++ printed, ?_, ?_⟩
  · rw [hprinted, hstart, List.append_assoc]
  · rw [Uart.after_append, Uart.after_append, hquiet, hconfigured, after_output hports, hbytes]

/-- Once the console is initialized, whatever it prints is transmitted, at 9600
baud with 8 data bits and no parity, and nothing else is. -/
theorem consInit_transmits (seen : BitVec 16) (st : Console) (u : Uart) :
    ∃ serialExists st', consInit seen st = some (serialExists, st') ∧
      ∀ cs, ∃ outbs, (cputchars cs st').outbs = st.outbs ++ outbs ∧
        u.after outbs = Uart.configured
          (u.sent ++ ((noticeText serialExists).map ofChar ++ cs).flatMap portBytes) := by
  refine ⟨_, _, consInit_eq seen st, fun cs => ?_⟩
  rw [show cputchars cs _ = feed cputchar cs _ from rfl, ← feed_append]
  exact initialized_transmits seen st u _

end JOSKernel.Kern.SerialLine
