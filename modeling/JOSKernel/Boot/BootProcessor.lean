import JOSKernel.Boot.Processor
import JOSKernel.Boot.Segments
import JOSKernel.General.Polling
import Mathlib.Logic.Relation

/-!
# The processor that starts the boot loader (`boot/boot.S`)

The instructions of `boot.S` as bytes, and a processor that starts in real mode:
segments begin at sixteen times their selector, code is 16-bit code, and the
keyboard controller holds address line 20 low.
-/

namespace JOSKernel.Boot.BootProcessor

open JOSKernel.General.ByteMemory
open JOSKernel.General.MachineInt
open JOSKernel.General.Polling
open JOSKernel.Boot.Segments
open JOSKernel.Boot.Processor (half word half_halfBytes word_wordBytes CR0_PE CR0_PG)

/-! ## The keyboard controller -/

/-- Nothing lies in the input buffer. -/
def inputFree (status : Byte) : Bool := status &&& 0x2 == 0

/-- What the controller answers to the polls now and behind each further byte that
it takes, the command that waits for its data, and its output port. -/
structure Controller where
  status : Status inputFree
  later : Nat → Status inputFree
  command : Option Byte
  outputPort : Byte

/-- The status register, port 0x64. -/
def Controller.register : Register Controller inputFree where
  get k := k.status
  set x k := { k with status := x }
  get_set _ _ := rfl
  set_set _ _ _ := rfl

def Controller.inb (port : Byte) (k : Controller) : Byte × Controller :=
  if port = 0x64 then register.read k else (0xFF, k)

/-- A byte is taken into the input buffer. -/
def Controller.take (k : Controller) : Controller :=
  { k with status := k.later 0, later := fun n => k.later (n + 1) }

/-- What comes while the input buffer is full is lost.  Command 0xD1 makes the next
data byte the output port. -/
def Controller.outb (port value : Byte) (k : Controller) : Controller :=
  if k.status.isIdle then
    if port = 0x64 then { k.take with command := some value }
    else if port = 0x60 then
      { k.take with
        command := none
        outputPort := if k.command = some 0xD1 then value else k.outputPort }
    else k
  else k

/-- Address line 20 is let through. -/
def Controller.a20 (k : Controller) : Bool := k.outputPort.getLsbD 1

/-- The output port keeps the processor in reset. -/
def Controller.resets (k : Controller) : Bool := !k.outputPort.getLsbD 0

/-! ## Instructions -/

inductive SegReg where
  | es
  | ss
  | ds
  | fs
  | gs
  deriving DecidableEq

/-- The instructions of `boot.S`; jumps and calls are relative to the next one. -/
inductive Instr where
  | cli
  | cld
  | xorAx
  | movSeg (r : SegReg)
  | inAl (port : Byte)
  | testAl (value : Byte)
  | jnz (rel : Byte)
  | movAl (value : Byte)
  | outAl (port : Byte)
  | lgdt (addr : BitVec 16)
  | movCr0Eax
  | orEax (value : Byte)
  | movEaxCr0
  | ljmp (sel off : BitVec 16)
  | movAx (value : BitVec 16)
  | movEsp (value : Word)
  | call (rel : Word)
  | jmp (rel : Byte)

/-- The operand that moves `ax` into a segment register. -/
def SegReg.modrm : SegReg → Byte
  | .es => 0xC0
  | .ss => 0xD0
  | .ds => 0xD8
  | .fs => 0xE0
  | .gs => 0xE8

def SegReg.ofModrm (b : Byte) : Option SegReg :=
  if b = 0xC0 then some .es
  else if b = 0xD0 then some .ss
  else if b = 0xD8 then some .ds
  else if b = 0xE0 then some .fs
  else if b = 0xE8 then some .gs
  else none

def encode : Instr → List Byte
  | .cli => [0xFA]
  | .cld => [0xFC]
  | .xorAx => [0x31, 0xC0]
  | .movSeg r => [0x8E, r.modrm]
  | .inAl port => [0xE4, port]
  | .testAl value => [0xA8, value]
  | .jnz rel => [0x75, rel]
  | .movAl value => [0xB0, value]
  | .outAl port => [0xE6, port]
  | .lgdt addr => 0x0F :: 0x01 :: 0x16 :: halfBytes addr
  | .movCr0Eax => [0x0F, 0x20, 0xC0]
  | .orEax value => [0x66, 0x83, 0xC8, value]
  | .movEaxCr0 => [0x0F, 0x22, 0xC0]
  | .ljmp sel off => 0xEA :: halfBytes off ++ halfBytes sel
  | .movAx value => 0x66 :: 0xB8 :: halfBytes value
  | .movEsp value => 0xBC :: wordBytes value
  | .call rel => 0xE8 :: wordBytes rel
  | .jmp rel => [0xEB, rel]

/-- Some of the bytes mean something else in the other kind of code. -/
def Instr.fits (big : Bool) : Instr → Bool
  | .xorAx | .lgdt _ | .orEax _ | .ljmp _ _ => !big
  | .movAx _ | .movEsp _ | .call _ => big
  | _ => true

/-- The instruction that the bytes `code` begin with, in 32-bit or in 16-bit code,
and its length. -/
def decode (big : Bool) (code : Nat → Option Byte) : Option (Instr × Nat) := do
  let opcode ← code 0
  if opcode = 0xFA then some (.cli, 1)
  else if opcode = 0xFC then some (.cld, 1)
  else if opcode = 0x8E then some (.movSeg (← SegReg.ofModrm (← code 1)), 2)
  else if opcode = 0xE4 then some (.inAl (← code 1), 2)
  else if opcode = 0xA8 then some (.testAl (← code 1), 2)
  else if opcode = 0x75 then some (.jnz (← code 1), 2)
  else if opcode = 0xB0 then some (.movAl (← code 1), 2)
  else if opcode = 0xE6 then some (.outAl (← code 1), 2)
  else if opcode = 0xEB then some (.jmp (← code 1), 2)
  else if opcode = 0x0F then do
    let second ← code 1
    let modrm ← code 2
    if second = 0x20 ∧ modrm = 0xC0 then some (.movCr0Eax, 3)
    else if second = 0x22 ∧ modrm = 0xC0 then some (.movEaxCr0, 3)
    else if second = 0x01 ∧ modrm = 0x16 ∧ big = false then some (.lgdt (← half code 3), 5)
    else none
  else if big then
    if opcode = 0x66 then
      if (← code 1) = 0xB8 then some (.movAx (← half code 2), 4) else none
    else if opcode = 0xBC then some (.movEsp (← word code 1), 5)
    else if opcode = 0xE8 then some (.call (← word code 1), 5)
    else none
  else
    if opcode = 0x31 then
      if (← code 1) = 0xC0 then some (.xorAx, 2) else none
    else if opcode = 0x66 then do
      let modrm ← code 2
      if (← code 1) = 0x83 ∧ modrm = 0xC8 then some (.orEax (← code 3), 4) else none
    else if opcode = 0xEA then do
      let off ← half code 1
      some (.ljmp (← half code 3) off, 5)
    else none

theorem SegReg.ofModrm_modrm (r : SegReg) : ofModrm r.modrm = some r := by
  cases r
  all_goals rfl

/-- An instruction is decoded as what it was encoded from. -/
theorem decode_encode {big : Bool} {code : Nat → Option Byte} (i : Instr)
    (hfits : i.fits big = true) (h : ∀ k < (encode i).length, code k = (encode i)[k]?) :
    decode big code = some (i, (encode i).length) := by
  have operand {opcode : Byte} {v : Word} (hbytes : encode i = opcode :: wordBytes v) :
      code 0 = some opcode ∧ word code 1 = some v := by
    rw [hbytes] at h
    refine ⟨h 0 (Nat.succ_pos _), word_wordBytes fun j hj => ?_⟩
    rw [Nat.add_comm, h (j + 1) (Nat.succ_lt_succ hj), List.getElem?_cons_succ]
  cases i with
  | cli =>
      have h₀ : code 0 = some 0xFA := h 0 (by decide)
      simp [decode, h₀, encode]
  | cld =>
      have h₀ : code 0 = some 0xFC := h 0 (by decide)
      simp [decode, h₀, encode]
  | xorAx =>
      have h₀ : code 0 = some 0x31 := h 0 (by decide)
      have h₁ : code 1 = some 0xC0 := h 1 (by decide)
      have hbig : big = false := by simpa [Instr.fits] using hfits
      simp [decode, h₀, h₁, hbig, encode]
  | movSeg r =>
      have h₀ : code 0 = some 0x8E := h 0 (by simp [encode])
      have h₁ : code 1 = some r.modrm := h 1 (by simp [encode])
      simp [decode, h₀, h₁, r.ofModrm_modrm, encode]
  | inAl port =>
      have h₀ : code 0 = some 0xE4 := h 0 (by simp [encode])
      have h₁ : code 1 = some port := h 1 (by simp [encode])
      simp [decode, h₀, h₁, encode]
  | testAl value =>
      have h₀ : code 0 = some 0xA8 := h 0 (by simp [encode])
      have h₁ : code 1 = some value := h 1 (by simp [encode])
      simp [decode, h₀, h₁, encode]
  | jnz rel =>
      have h₀ : code 0 = some 0x75 := h 0 (by simp [encode])
      have h₁ : code 1 = some rel := h 1 (by simp [encode])
      simp [decode, h₀, h₁, encode]
  | movAl value =>
      have h₀ : code 0 = some 0xB0 := h 0 (by simp [encode])
      have h₁ : code 1 = some value := h 1 (by simp [encode])
      simp [decode, h₀, h₁, encode]
  | outAl port =>
      have h₀ : code 0 = some 0xE6 := h 0 (by simp [encode])
      have h₁ : code 1 = some port := h 1 (by simp [encode])
      simp [decode, h₀, h₁, encode]
  | jmp rel =>
      have h₀ : code 0 = some 0xEB := h 0 (by simp [encode])
      have h₁ : code 1 = some rel := h 1 (by simp [encode])
      simp [decode, h₀, h₁, encode]
  | lgdt addr =>
      have h₀ : code 0 = some 0x0F := h 0 (by simp [encode])
      have h₁ : code 1 = some 0x01 := h 1 (by simp [encode])
      have h₂ : code 2 = some 0x16 := h 2 (by simp [encode])
      have haddr : half code 3 = some addr := by
        refine half_halfBytes fun j hj => ?_
        rw [h (3 + j) (by simp [encode, halfBytes]; omega), Nat.add_comm 3]
        rfl
      have hbig : big = false := by simpa [Instr.fits] using hfits
      simp [decode, h₀, h₁, h₂, haddr, hbig, encode, halfBytes]
  | movCr0Eax =>
      have h₀ : code 0 = some 0x0F := h 0 (by decide)
      have h₁ : code 1 = some 0x20 := h 1 (by decide)
      have h₂ : code 2 = some 0xC0 := h 2 (by decide)
      simp [decode, h₀, h₁, h₂, encode]
  | orEax value =>
      have h₀ : code 0 = some 0x66 := h 0 (by simp [encode])
      have h₁ : code 1 = some 0x83 := h 1 (by simp [encode])
      have h₂ : code 2 = some 0xC8 := h 2 (by simp [encode])
      have h₃ : code 3 = some value := h 3 (by simp [encode])
      have hbig : big = false := by simpa [Instr.fits] using hfits
      simp [decode, h₀, h₁, h₂, h₃, hbig, encode]
  | movEaxCr0 =>
      have h₀ : code 0 = some 0x0F := h 0 (by decide)
      have h₁ : code 1 = some 0x22 := h 1 (by decide)
      have h₂ : code 2 = some 0xC0 := h 2 (by decide)
      simp [decode, h₀, h₁, h₂, encode]
  | ljmp sel off =>
      have h₀ : code 0 = some 0xEA := h 0 (by simp [encode])
      have hoff : half code 1 = some off := by
        refine half_halfBytes fun j hj => ?_
        rw [h (1 + j) (by simp [encode, halfBytes]; omega), Nat.add_comm 1]
        show (halfBytes off ++ halfBytes sel)[j]? = _
        exact List.getElem?_append_left hj
      have hsel : half code 3 = some sel := by
        refine half_halfBytes fun j hj => ?_
        rw [h (3 + j) (by simp [encode, halfBytes]; omega), Nat.add_comm 3]
        rfl
      have hbig : big = false := by simpa [Instr.fits] using hfits
      simp [decode, h₀, hoff, hsel, hbig, encode, halfBytes]
  | movAx value =>
      have h₀ : code 0 = some 0x66 := h 0 (by simp [encode])
      have h₁ : code 1 = some 0xB8 := h 1 (by simp [encode])
      have hvalue : half code 2 = some value := by
        refine half_halfBytes fun j hj => ?_
        rw [h (2 + j) (by simp [encode, halfBytes]; omega), Nat.add_comm 2]
        rfl
      have hbig : big = true := hfits
      simp [decode, h₀, h₁, hvalue, hbig, encode, halfBytes]
  | movEsp value =>
      obtain ⟨h₀, h₁⟩ := operand rfl
      have hbig : big = true := hfits
      simp [decode, h₀, h₁, hbig, encode, wordBytes]
  | call rel =>
      obtain ⟨h₀, h₁⟩ := operand rfl
      have hbig : big = true := hfits
      simp [decode, h₀, h₁, hbig, encode, wordBytes]

/-! ## The processor -/

/-- The registers that `boot.S` uses, the hidden parts of the segment registers, the
flags for zero, interrupts and direction, and the descriptor table. -/
structure Cpu where
  eip : Word
  eax : Word
  esp : Word
  cr0 : Word
  zero : Bool
  intr : Bool
  dir : Bool
  cs : Descriptor
  seg : SegReg → Descriptor
  gdtLimit : BitVec 16
  gdtBase : Word
  mem : Memory
  kbc : Controller

namespace Cpu

def isProtected (c : Cpu) : Bool := c.cr0 &&& CR0_PE != 0

/-- The physical address of a linear one. -/
def physical (c : Cpu) (la : Word) : Nat :=
  if c.kbc.a20 then la.toNat else (la &&& 0xFFEFFFFF).toNat

/-- Where an offset into a segment lies in memory. -/
def place (c : Cpu) (d : Descriptor) (off : Word) : Option Nat := (d.linear off).map c.physical

def loadByte (c : Cpu) (d : Descriptor) (off : Word) : Option Byte := (c.place d off).map c.mem

def storeBytes (c : Cpu) (d : Descriptor) : Word → List Byte → Option Memory :=
  storeVia (c.place d) c.mem

/-- The entry of the descriptor table that a selector names. -/
def descriptor (c : Cpu) (sel : BitVec 16) : Descriptor :=
  Descriptor.read fun k =>
    c.mem (c.physical (c.gdtBase + (sel &&& 0xFFF8).setWidth 32 + BitVec.ofNat 32 k))

/-- A selector that names an entry, asks for the highest privilege and is not null. -/
def names (c : Cpu) (sel : BitVec 16) : Bool :=
  sel &&& 0x7 == 0 && sel != 0 && sel.toNat + 7 ≤ c.gdtLimit.toNat

/-- The segment that a selector loads.  The accessed bit that the processor sets in
the descriptor is left out. -/
def load (c : Cpu) (sel : BitVec 16) (suits : Descriptor → Bool) : Option Descriptor :=
  let d := c.descriptor sel
  if c.names sel && d.present && d.application && suits d then some d else none

end Cpu

/-- Code that runs at the highest privilege. -/
def Descriptor.runs (d : Descriptor) : Bool := d.type &&& 0x8 != 0 && d.dpl == 0

/-- What a segment register takes: a stack is writable data, and anything else is
not code that cannot be read. -/
def SegReg.takes : SegReg → Descriptor → Bool
  | .ss, d => d.type &&& 0xA == 0x2 && d.dpl == 0
  | _, d => d.type &&& 0xA != 0x8

def withLow (eax : Word) (v : Byte) : Word := eax.extractLsb' 8 24 ++ v

def withHalf (eax : Word) (v : BitVec 16) : Word := eax.extractLsb' 16 16 ++ v

namespace Cpu

def withSeg (c : Cpu) (r : SegReg) (d : Descriptor) : Cpu :=
  { c with seg := fun r' => if r' = r then d else c.seg r' }

/-- Jump inside the code segment. -/
def jump (c : Cpu) (eip : Word) : Cpu := { c with eip := if c.cs.big then eip else eip &&& 0xFFFF }

/-- Execute `i`, with `eip` behind it. -/
def exec (c : Cpu) : Instr → Option Cpu
  | .cli => some { c with intr := false }
  | .cld => some { c with dir := false }
  | .xorAx => some { c with eax := withHalf c.eax 0, zero := true }
  | .movSeg r =>
      let sel : BitVec 16 := c.eax.setWidth 16
      if c.isProtected then do
        let d ← c.load sel r.takes
        some (c.withSeg r d)
      else some (c.withSeg r { c.seg r with base := sel.setWidth 32 <<< 4 })
  | .inAl port =>
      let (v, kbc) := c.kbc.inb port
      some { c with eax := withLow c.eax v, kbc := kbc }
  | .testAl value => some { c with zero := (c.eax.setWidth 8 : Byte) &&& value == 0 }
  | .jnz rel => some (if c.zero then c else c.jump (c.eip + rel.signExtend 32))
  | .movAl value => some { c with eax := withLow c.eax value }
  | .outAl port =>
      let kbc := c.kbc.outb port (c.eax.setWidth 8)
      if kbc.resets then none else some { c with kbc := kbc }
  | .lgdt addr => do
      let code := fun k => c.loadByte (c.seg .ds) (addr.setWidth 32 + BitVec.ofNat 32 k)
      let limit ← half code 0
      let base ← word code 2
      some { c with
        gdtLimit := limit
        gdtBase := if c.cs.big then base else base &&& 0xFFFFFF }
  | .movCr0Eax => some { c with eax := c.cr0 }
  | .orEax value =>
      let eax := c.eax ||| value.signExtend 32
      some { c with eax := eax, zero := eax == 0 }
  | .movEaxCr0 => if c.eax &&& CR0_PG = 0 then some { c with cr0 := c.eax } else none
  | .ljmp sel off =>
      if c.isProtected then do
        let d ← c.load sel Descriptor.runs
        some { c with cs := d, eip := off.setWidth 32 }
      else
        some { c with cs := { c.cs with base := sel.setWidth 32 <<< 4 }, eip := off.setWidth 32 }
  | .movAx value => some { c with eax := withHalf c.eax value }
  | .movEsp value => some { c with esp := value }
  | .call rel => do
      let mem ← c.storeBytes (c.seg .ss) (c.esp - 4) (wordBytes c.eip)
      some ({ c with mem := mem, esp := c.esp - 4 }.jump (c.eip + rel))
  | .jmp rel => some (c.jump (c.eip + rel.signExtend 32))

theorem load_eq {c : Cpu} {sel : BitVec 16} (hnames : c.names sel = true) {d : Descriptor}
    (hd : c.descriptor sel = d) {suits : Descriptor → Bool}
    (hsuits : (d.present && d.application && suits d) = true) : c.load sel suits = some d := by
  rw [load, hnames, hd, Bool.true_and, hsuits]
  rfl

theorem exec_movSeg_real {c : Cpu} (hreal : c.isProtected = false)
    (hax : (c.eax.setWidth 16 : BitVec 16) = 0) (r : SegReg) :
    c.exec (.movSeg r) = some (c.withSeg r { c.seg r with base := 0 }) := by
  rw [exec, hreal, hax]
  rfl

theorem exec_movSeg_protected {c : Cpu} (hprotected : c.isProtected = true) {r : SegReg}
    {d : Descriptor} (hload : c.load (c.eax.setWidth 16) r.takes = some d) :
    c.exec (.movSeg r) = some (c.withSeg r d) := by
  rw [exec, hprotected, if_pos rfl, hload]
  rfl

theorem exec_ljmp_protected {c : Cpu} (hprotected : c.isProtected = true) {sel off : BitVec 16}
    {d : Descriptor} (hload : c.load sel Descriptor.runs = some d) :
    c.exec (.ljmp sel off) = some { c with cs := d, eip := off.setWidth 32 } := by
  rw [exec, hprotected, if_pos rfl, hload]
  rfl

theorem exec_lgdt {c : Cpu} {addr limit : BitVec 16} {base : Word}
    (hlimit : half (fun k => c.loadByte (c.seg .ds) (addr.setWidth 32 + BitVec.ofNat 32 k)) 0 =
      some limit)
    (hbase : word (fun k => c.loadByte (c.seg .ds) (addr.setWidth 32 + BitVec.ofNat 32 k)) 2 =
      some base) :
    c.exec (.lgdt addr) = some { c with
      gdtLimit := limit
      gdtBase := if c.cs.big then base else base &&& 0xFFFFFF } := by
  rw [exec, hlimit, hbase]
  rfl

theorem exec_inAl {c : Cpu} {port v : Byte} {kbc : Controller} (h : c.kbc.inb port = (v, kbc)) :
    c.exec (.inAl port) = some { c with eax := withLow c.eax v, kbc := kbc } := by
  rw [exec, h]

theorem exec_outAl {c : Cpu} {port : Byte}
    (h : (c.kbc.outb port (c.eax.setWidth 8)).resets = false) :
    c.exec (.outAl port) = some { c with kbc := c.kbc.outb port (c.eax.setWidth 8) } := by
  rw [exec, h]
  exact if_neg Bool.false_ne_true

theorem exec_call {c : Cpu} (hbig : c.cs.big = true) {mem : Memory}
    (hstore : c.storeBytes (c.seg .ss) (c.esp - 4) (wordBytes c.eip) = some mem) (rel : Word) :
    c.exec (.call rel) =
      some { c with mem := mem, esp := c.esp - 4, eip := c.eip + rel } := by
  rw [exec, hstore]
  show some { c with
    mem := mem
    esp := c.esp - 4
    eip := if c.cs.big then c.eip + rel else (c.eip + rel) &&& 0xFFFF } = _
  rw [hbig]
  rfl

def step (c : Cpu) : Option Cpu := do
  let (i, size) ← decode c.cs.big fun k => c.loadByte c.cs (c.eip + BitVec.ofNat 32 k)
  { c with eip := c.eip + BitVec.ofNat 32 size }.exec i

/-- The processor gets from one state to the other. -/
def Reaches : Cpu → Cpu → Prop := Relation.ReflTransGen fun c c' => c.step = some c'

end Cpu

/-! ## Low addresses -/

/-- A segment that begins at address zero and has 64 kilobytes at least. -/
structure Descriptor.Low (d : Descriptor) : Prop where
  base : d.base = 0
  limit : 0xFFFF ≤ d.limit.toNat
  up : d.expandsDown = false

/-- A mask that is set as far as a number goes. -/
theorem and_ones {x mask : Word} (n : Nat) (hmask : ∀ i < n, mask.getLsbD i = true)
    (hx : x.toNat < 2 ^ n) : x &&& mask = x := by
  apply BitVec.eq_of_getLsbD_eq
  intro i _
  rw [BitVec.getLsbD_and]
  by_cases hi : i < n
  · rw [hmask i hi, Bool.and_true]
  · have hzero : x.getLsbD i = false := by
      apply Nat.testBit_lt_two_pow
      have hle : 2 ^ n ≤ 2 ^ i := Nat.pow_le_pow_right (show 1 ≤ 2 by decide) (Nat.le_of_not_lt hi)
      exact Nat.lt_of_lt_of_le hx hle
    rw [hzero, Bool.false_and]

/-- Address line 20 makes no difference in the first megabyte. -/
theorem physical_low (c : Cpu) {la : Word} (h : la.toNat < 1048576) : c.physical la = la.toNat := by
  rw [Cpu.physical, and_ones 20 (by decide) h, ite_self]

theorem place_low (c : Cpu) {d : Descriptor} (hd : Descriptor.Low d) {off : Word}
    (h : off.toNat ≤ 0xFFFF) : c.place d off = some off.toNat := by
  have hcontains : d.contains off = true := by
    rw [Descriptor.contains, hd.up, if_neg Bool.false_ne_true]
    exact decide_eq_true (Nat.le_trans h hd.limit)
  have hsum : (0 : Word) + off = off := BitVec.zero_add off
  rw [Cpu.place, Descriptor.linear, if_pos hcontains, hd.base, hsum, Option.map_some,
    physical_low c (by omega)]

theorem loadByte_low (c : Cpu) {d : Descriptor} (hd : Descriptor.Low d) {off : Word}
    (h : off.toNat ≤ 0xFFFF) : c.loadByte d off = some (c.mem off.toNat) := by
  rw [Cpu.loadByte, place_low c hd h, Option.map_some]

theorem storeBytes_low (c : Cpu) {d : Descriptor} (hd : Descriptor.Low d) {off : Word}
    {bs : List Byte} (h : off.toNat + bs.length ≤ 0x10000) :
    c.storeBytes d off bs = some (overlay c.mem off.toNat bs.length fun i => bs.getD i 0) := by
  refine storeVia_eq c.mem fun i hi => ?_
  have hplace : (off + BitVec.ofNat 32 i).toNat = off.toNat + i := by
    rw [BitVec.toNat_add, BitVec.toNat_ofNat]
    simp only [Nat.reducePow]
    omega
  rw [place_low c hd (by omega), hplace]

end JOSKernel.Boot.BootProcessor
