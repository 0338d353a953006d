import JOSKernel.Boot.BootProcessor

/-!
# From the BIOS to `bootmain` (`boot/boot.S`, `boot/sign.pl`)

The BIOS loads the first sector of the disk to 0x7C00 and jumps there in real
mode.  The code waits for the keyboard controller, enables address line 20,
switches to protected mode with flat segments and calls `bootmain`.
-/

namespace JOSKernel.Boot.BootBlock

open JOSKernel.General.ByteMemory
open JOSKernel.General.MachineInt
open JOSKernel.General.Polling
open JOSKernel.Boot.BootProcessor
open JOSKernel.Boot.Processor (half word half_halfBytes word_wordBytes CR0_PE CR0_PG or_and
  or_and_ne_zero)
open JOSKernel.Boot.Segments

/-! ## The code of `boot.S` -/

def PROT_MODE_CSEG : BitVec 16 := 0x8
def PROT_MODE_DSEG : BitVec 16 := 0x10

def start : Word := 0x7C00
def protcseg : Word := start + 0x32
def spin : Word := start + 0x4A
def gdt : Word := start + 0x4C
def gdtdesc : Word := start + 0x64

/-- Wait for not busy. -/
def waitText : List Instr := [.inAl 0x64, .testAl 0x2, .jnz 0xFA]

/-- Wait, then send a byte. -/
def sendText (value port : Byte) : List Instr := waitText ++ [.movAl value, .outAl port]

/-- The 16-bit code. -/
def realText : List Instr :=
  [.cli, .cld, .xorAx, .movSeg .ds, .movSeg .es, .movSeg .ss] ++
    sendText 0xD1 0x64 ++ sendText 0xDF 0x60 ++
    [.lgdt (gdtdesc.setWidth 16), .movCr0Eax, .orEax 0x1, .movEaxCr0,
      .ljmp PROT_MODE_CSEG (protcseg.setWidth 16)]

/-- The 32-bit code. -/
def protText (bootmain : Word) : List Instr :=
  [.movAx PROT_MODE_DSEG, .movSeg .ds, .movSeg .es, .movSeg .fs, .movSeg .gs, .movSeg .ss,
    .movEsp start, .call (bootmain - spin), .jmp 0xFE]

/-- Bootstrap GDT -/
def gdtBytes : List Byte :=
  asmSEG_NULL ++ asmSEG ((STA_X ||| STA_R).setWidth 8) 0x0 0xFFFFFFFF ++
    asmSEG (STA_W.setWidth 8) 0x0 0xFFFFFFFF

def code (bootmain : Word) : List Byte := (realText ++ protText bootmain).flatMap encode

/-- What `boot.S` assembles to; the table starts at a multiple of four already. -/
def block (bootmain : Word) : List Byte :=
  code bootmain ++ gdtBytes ++ (halfBytes 0x17 ++ wordBytes gdt)

/-- The labels in the block. -/
theorem labels (bootmain : Word) :
    protcseg = start + BitVec.ofNat 32 (realText.flatMap encode).length ∧
      spin = start +
        BitVec.ofNat 32 (((realText ++ protText bootmain).take 29).flatMap encode).length ∧
      gdt = start + BitVec.ofNat 32 (code bootmain).length ∧ gdt.toNat % 4 = 0 ∧
      gdtdesc = start + BitVec.ofNat 32 (code bootmain ++ gdtBytes).length ∧
      (0x17 : BitVec 16) = BitVec.ofNat 16 (gdtBytes.length - 1) :=
  ⟨rfl, rfl, rfl, rfl, rfl, rfl⟩

theorem block_length (bootmain : Word) : (block bootmain).length = 106 := rfl

/-! ## The boot sector -/

/-- `sign.pl`: at most 510 bytes are filled up and signed. -/
def sign (buf : List Byte) : Option (List Byte) :=
  let buf := buf.take 1000
  if buf.length > 510 then none
  else some (buf ++ List.replicate (510 - buf.length) 0 ++ [0x55, 0xAA])

theorem sign_spec {buf sector : List Byte} (h : sign buf = some sector) :
    buf.length ≤ 510 ∧ sector.length = 512 ∧ buf <+: sector ∧ sector.drop 510 = [0x55, 0xAA] := by
  rw [sign] at h
  split at h
  · exact nomatch h
  · rename_i hshort
    have hlength := List.length_take (i := 1000) (l := buf)
    have htake : buf.take 1000 = buf := List.take_of_length_le (by omega)
    rw [htake] at h hshort
    have hfilled : (buf ++ List.replicate (510 - buf.length) 0).length = 510 := by
      rw [List.length_append, List.length_replicate]
      omega
    cases h
    refine ⟨by omega, ?_, ?_, ?_⟩
    · rw [List.length_append, hfilled]
      rfl
    · rw [List.append_assoc]
      exact List.prefix_append _ _
    · exact List.drop_left' hfilled

/-! ## Along the block -/

/-- The processor is `off` bytes into the block. -/
structure Here (bootmain : Word) (c : Cpu) (off : Nat) : Prop where
  eip : c.eip = start + BitVec.ofNat 32 off
  cs : Descriptor.Low c.cs
  placed : ∀ j < (block bootmain).length, some (c.mem (0x7C00 + j)) = (block bootmain)[j]?

theorem start_add {k : Nat} (hk : k < 1024) : (start + BitVec.ofNat 32 k).toNat = 0x7C00 + k := by
  rw [BitVec.toNat_add, BitVec.toNat_ofNat, show start.toNat = 31744 from rfl]
  simp only [Nat.reducePow]
  omega

variable {bootmain : Word}

theorem step_here {c : Cpu} {off : Nat} (h : Here bootmain c off) {i : Instr}
    (hfits : i.fits c.cs.big = true) {post : List Byte}
    (hcode : (block bootmain).drop off = encode i ++ post) :
    c.step = { c with eip := start + BitVec.ofNat 32 (off + (encode i).length) }.exec i := by
  have hlength := block_length bootmain
  have hdecode : decode c.cs.big (fun k => c.loadByte c.cs (c.eip + BitVec.ofNat 32 k)) =
      some (i, (encode i).length) := by
    refine decode_encode i hfits fun k hk => ?_
    have hin : off + k < (block bootmain).length := by
      have hsplit := congrArg List.length hcode
      rw [List.length_drop, List.length_append] at hsplit
      omega
    have hget : (block bootmain)[off + k]? = (encode i)[k]? := by
      rw [← List.getElem?_drop, hcode, List.getElem?_append_left hk]
    have hplace : (c.eip + BitVec.ofNat 32 k).toNat = 0x7C00 + (off + k) := by
      rw [h.eip, BitVec.add_assoc, ← BitVec.ofNat_add, start_add (by omega)]
    rw [loadByte_low c h.cs (by omega), hplace, h.placed _ hin, hget]
  rw [Cpu.step, hdecode, BitVec.ofNat_add, ← BitVec.add_assoc, ← h.eip]
  rfl

/-- Real mode, with `ds` set and interrupts off. -/
structure InReal (bootmain : Word) (c₀ c : Cpu) (off : Nat) : Prop where
  here : Here bootmain c off
  big : c.cs.big = false
  cr0 : c.cr0 = c₀.cr0
  mem : c.mem = c₀.mem
  intr : c.intr = false
  dir : c.dir = false
  ds : Descriptor.Low (c.seg .ds)

/-- One instruction of the 16-bit code that is no jump. -/
theorem InReal.step {c₀ c : Cpu} {off : Nat} (h : InReal bootmain c₀ c off) {i : Instr}
    (hfits : i.fits false = true) {post : List Byte}
    (hcode : (block bootmain).drop off = encode i ++ post) :
    c.step = { c with eip := start + BitVec.ofNat 32 (off + (encode i).length) }.exec i :=
  step_here h.here (by rw [h.big]; exact hfits) hcode

theorem low_withLow (eax : Word) (v : Byte) : (withLow eax v).setWidth 8 = v := by
  have hv := v.isLt
  apply BitVec.eq_of_toNat_eq
  rw [BitVec.toNat_setWidth, withLow, append_toNat]
  simp only [Nat.reducePow] at hv ⊢
  omega

/-- What stands behind the first bytes. -/
theorem drop_behind {off n : Nat} {front rest : List Byte}
    (h : (block bootmain).drop off = front ++ rest) (hn : front.length = n) :
    (block bootmain).drop (off + n) = rest := by
  rw [← List.drop_drop, h, ← hn, List.drop_left]

/-- The jump that polls once more. -/
theorem jump_back {off : Nat} (hoff : off + 6 < 1024) :
    (start + BitVec.ofNat 32 (off + 6) + (0xFA : Byte).signExtend 32) &&& 0xFFFF =
      start + BitVec.ofNat 32 off := by
  have hrel : (BitVec.ofNat 32 6 : Word) + (0xFA : Byte).signExtend 32 = 0#32 := by decide
  have hlow := start_add (show off < 1024 by omega)
  rw [BitVec.ofNat_add, ← BitVec.add_assoc, BitVec.add_assoc (start + BitVec.ofNat 32 off), hrel,
    BitVec.add_zero]
  exact and_ones 16 (by decide) (show _ < 65536 by omega)

/-- One round of the loop that waits for the controller. -/
theorem wait_round {c₀ c : Cpu} {off : Nat} (h : InReal bootmain c₀ c off) {post : List Byte}
    (hcode : (block bootmain).drop off = waitText.flatMap encode ++ post)
    {v : Byte} {kbc : Controller} (hread : Controller.register.read c.kbc = (v, kbc)) :
    ∃ c', Cpu.Reaches c c' ∧ InReal bootmain c₀ c' (if inputFree v then off + 6 else off) ∧
      c'.kbc = kbc := by
  have hroom : off + 6 < 1024 := by
    have hsplit := congrArg List.length hcode
    rw [List.length_drop, List.length_append, block_length] at hsplit
    have hwait : (waitText.flatMap encode).length = 6 := rfl
    omega
  have hinb : c.kbc.inb 0x64 = (v, kbc) := hread
  let c₁ : Cpu := { c with
    eip := start + BitVec.ofNat 32 (off + 2)
    eax := withLow c.eax v
    kbc := kbc }
  have hin : c.step = some c₁ := by
    rw [h.step (i := .inAl 0x64) rfl hcode]
    exact Cpu.exec_inAl hinb
  have h₁ : InReal bootmain c₀ c₁ (off + 2) :=
    ⟨⟨rfl, h.here.cs, h.here.placed⟩, h.big, h.cr0, h.mem, h.intr, h.dir, h.ds⟩
  let c₂ : Cpu := { c₁ with eip := start + BitVec.ofNat 32 (off + 4), zero := inputFree v }
  have htest : c₁.step = some c₂ := by
    rw [h₁.step (i := .testAl 0x2) rfl
      (@drop_behind bootmain off 2 (encode (.inAl 0x64)) _ hcode rfl)]
    show some { c₁ with
      eip := start + BitVec.ofNat 32 (off + 4)
      zero := ((withLow c.eax v).setWidth 8 : Byte) &&& 0x2 == 0 } = _
    rw [low_withLow]
    rfl
  have h₂ : InReal bootmain c₀ c₂ (off + 4) :=
    ⟨⟨rfl, h.here.cs, h.here.placed⟩, h.big, h.cr0, h.mem, h.intr, h.dir, h.ds⟩
  have hjnz := h₂.step (i := .jnz 0xFA) rfl
    (@drop_behind bootmain off 4 (encode (.inAl 0x64) ++ encode (.testAl 0x2)) _ hcode rfl)
  cases hfree : inputFree v with
  | true =>
      let c₃ : Cpu := { c₂ with eip := start + BitVec.ofNat 32 (off + 6) }
      have hjump : c₂.step = some c₃ := by
        rw [hjnz, Cpu.exec]
        show some (if inputFree v then c₃ else _) = _
        rw [hfree]
        rfl
      refine ⟨c₃, .head hin (.head htest (.single hjump)), ?_, rfl⟩
      exact ⟨⟨rfl, h.here.cs, h.here.placed⟩, h.big, h.cr0, h.mem, h.intr, h.dir, h.ds⟩
  | false =>
      let c₃ : Cpu := { c₂ with eip := start + BitVec.ofNat 32 off }
      have hjump : c₂.step = some c₃ := by
        rw [hjnz, Cpu.exec]
        show some (if inputFree v then _ else Cpu.jump { c₂ with
          eip := start + BitVec.ofNat 32 (off + 6) }
            (start + BitVec.ofNat 32 (off + 6) + (0xFA : Byte).signExtend 32)) = _
        rw [hfree, Cpu.jump]
        show some { c₂ with eip := if c.cs.big then _ else _ } = _
        rw [h.big, jump_back hroom]
        rfl
      refine ⟨c₃, .head hin (.head htest (.single hjump)), ?_, rfl⟩
      exact ⟨⟨rfl, h.here.cs, h.here.placed⟩, h.big, h.cr0, h.mem, h.intr, h.dir, h.ds⟩

/-- The controller, once it has taken what it was sent. -/
def settledAt (kbc : Controller) : Controller := { kbc with status := kbc.status.idle }

theorem outb_settled (kbc : Controller) {port : Byte} (value : Byte) :
    (settledAt kbc).outb port value =
      if port = 0x64 then { kbc.take with command := some value }
      else if port = 0x60 then
        { kbc.take with
          command := none
          outputPort := if kbc.command = some 0xD1 then value else kbc.outputPort }
      else settledAt kbc := rfl

/-- The output port, behind the command and its data. -/
theorem outputPort_sent (kbc : Controller) :
    ((settledAt ((settledAt kbc).outb 0x64 0xD1)).outb 0x60 0xDF).outputPort = 0xDF := by
  rw [outb_settled, if_neg (by decide), if_pos rfl, outb_settled, if_pos rfl, if_pos rfl]

/-- However often the controller is not ready, the loop ends. -/
theorem wait_ends {c₀ c : Cpu} {off : Nat} (h : InReal bootmain c₀ c off) {post : List Byte}
    (hcode : (block bootmain).drop off = waitText.flatMap encode ++ post) :
    ∃ c', Cpu.Reaches c c' ∧ InReal bootmain c₀ c' (off + 6) ∧ c'.kbc = settledAt c.kbc := by
  obtain ⟨waits, hwaits⟩ : ∃ waits, c.kbc.status.waits = waits := ⟨_, rfl⟩
  induction waits generalizing c with
  | nil =>
      have hread : Controller.register.read c.kbc = (c.kbc.status.settled.val, settledAt c.kbc) :=
        Controller.register.read_ready hwaits
      obtain ⟨c', hreach, hreal, hkbc⟩ := wait_round h hcode hread
      rw [if_pos c.kbc.status.settled.property] at hreal
      exact ⟨c', hreach, hreal, hkbc⟩
  | cons b waits ih =>
      have hread : Controller.register.read c.kbc =
          (b.val, { c.kbc with status := { c.kbc.status with waits := waits } }) :=
        Controller.register.read_wait hwaits
      obtain ⟨c', hreach, hreal, hkbc⟩ := wait_round h hcode hread
      rw [if_neg (by rw [b.property]; exact Bool.false_ne_true)] at hreal
      obtain ⟨c'', hreach', hreal', hkbc'⟩ := ih hreal (by rw [hkbc])
      refine ⟨c'', hreach.trans hreach', hreal', hkbc'.trans ?_⟩
      rw [hkbc]
      rfl

/-- The controller gets the byte once it is ready. -/
theorem send {c₀ c : Cpu} {off : Nat} (h : InReal bootmain c₀ c off) {value port : Byte}
    {post : List Byte}
    (hcode : (block bootmain).drop off = (sendText value port).flatMap encode ++ post)
    (hresets : ((settledAt c.kbc).outb port value).resets = false) :
    ∃ c', Cpu.Reaches c c' ∧ InReal bootmain c₀ c' (off + 10) ∧
      c'.kbc = (settledAt c.kbc).outb port value := by
  have hwaits : (block bootmain).drop off =
      waitText.flatMap encode ++ (encode (.movAl value) ++ encode (.outAl port) ++ post) := hcode
  obtain ⟨c₁, hreach, h₁, hkbc⟩ := wait_ends h hwaits
  let c₂ : Cpu := { c₁ with
    eip := start + BitVec.ofNat 32 (off + 8)
    eax := withLow c₁.eax value }
  have hmov : c₁.step = some c₂ :=
    h₁.step (i := .movAl value) rfl (@drop_behind bootmain off 6 _ _ hwaits rfl)
  have h₂ : InReal bootmain c₀ c₂ (off + 8) :=
    ⟨⟨rfl, h₁.here.cs, h₁.here.placed⟩, h₁.big, h₁.cr0, h₁.mem, h₁.intr, h₁.dir, h₁.ds⟩
  have hout : c₂.step = some { c₂ with
      eip := start + BitVec.ofNat 32 (off + 10)
      kbc := (settledAt c.kbc).outb port value } := by
    have hvalue : ((withLow c₁.eax value).setWidth 8 : Byte) = value := low_withLow _ _
    have hcode' : (block bootmain).drop (off + 8) = encode (.outAl port) ++ post :=
      @drop_behind bootmain off 8 (waitText.flatMap encode ++ encode (.movAl value)) _ hcode rfl
    refine (h₂.step (i := .outAl port) rfl hcode').trans ?_
    refine (Cpu.exec_outAl ?_).trans ?_
    · show (c₁.kbc.outb port ((withLow c₁.eax value).setWidth 8)).resets = false
      rw [hvalue, hkbc]
      exact hresets
    · show some { c₂ with
        eip := start + BitVec.ofNat 32 (off + 10)
        kbc := c₁.kbc.outb port ((withLow c₁.eax value).setWidth 8) } = _
      rw [hvalue, hkbc]
  exact ⟨_, hreach.trans (.head hmov (.single hout)),
    ⟨⟨rfl, h₁.here.cs, h₁.here.placed⟩, h₁.big, h₁.cr0, h₁.mem, h₁.intr, h₁.dir, h₁.ds⟩, rfl⟩

/-! ## In real mode -/

/-- How the BIOS leaves the machine: the boot sector lies at `start`, where 16-bit
code runs in real mode, and the keyboard controller lets the processor run. -/
structure Bios (sector : List Byte) (c : Cpu) : Prop where
  eip : c.eip = start
  cs : Descriptor.Low c.cs
  loaded : ∀ j < 512, some (c.mem (0x7C00 + j)) = sector[j]?
  big : c.cs.big = false
  real : c.cr0 &&& CR0_PE = 0
  unpaged : c.cr0 &&& CR0_PG = 0
  ds_limit : 0xFFFF ≤ (c.seg .ds).limit.toNat
  ds_up : (c.seg .ds).expandsDown = false
  running : c.kbc.resets = false

theorem low_withHalf (eax : Word) (v : BitVec 16) : (withHalf eax v).setWidth 16 = v := by
  have hv := v.isLt
  apply BitVec.eq_of_toNat_eq
  rw [BitVec.toNat_setWidth, withHalf, append_toNat]
  simp only [Nat.reducePow] at hv ⊢
  omega

theorem not_protected {c : Cpu} (h : c.cr0 &&& CR0_PE = 0) : c.isProtected = false := by
  rw [Cpu.isProtected, h]
  rfl

/-- The signed block is in memory. -/
theorem Bios.here {sector rest : List Byte} {c : Cpu} (h : Bios sector c)
    (hsign : sign (block bootmain ++ rest) = some sector) : Here bootmain c 0 := by
  obtain ⟨hshort, hlength, ⟨behind, hprefix⟩, _⟩ := sign_spec hsign
  refine ⟨by rw [h.eip, BitVec.add_zero], h.cs, fun j hj => ?_⟩
  rw [List.length_append] at hshort
  rw [h.loaded j (by omega), ← hprefix, List.append_assoc, List.getElem?_append_left hj]

/-- The first instructions. -/
theorem prologue {sector : List Byte} {c : Cpu} (h : Bios sector c) (hhere : Here bootmain c 0) :
    ∃ c', Cpu.Reaches c c' ∧ InReal bootmain c c' 10 ∧ c'.kbc = c.kbc := by
  have hreal := not_protected h.real
  have hax : ((withHalf c.eax 0).setWidth 16 : BitVec 16) = 0 := low_withHalf _ _
  have here (c' : Cpu) (off : Nat) (heip : c'.eip = start + BitVec.ofNat 32 off)
      (hcs : c'.cs = c.cs) (hmem : c'.mem = c.mem) : Here bootmain c' off :=
    ⟨heip, by rw [hcs]; exact hhere.cs, by rw [hmem]; exact hhere.placed⟩
  let c₁ : Cpu := { c with eip := start + BitVec.ofNat 32 1, intr := false }
  let c₂ : Cpu := { c₁ with eip := start + BitVec.ofNat 32 2, dir := false }
  let c₃ : Cpu := { c₂ with
    eip := start + BitVec.ofNat 32 4
    eax := withHalf c.eax 0
    zero := true }
  let c₄ : Cpu := Cpu.withSeg { c₃ with eip := start + BitVec.ofNat 32 6 } .ds
    { c.seg .ds with base := 0 }
  let c₅ : Cpu := Cpu.withSeg { c₄ with eip := start + BitVec.ofNat 32 8 } .es
    { c.seg .es with base := 0 }
  let c₆ : Cpu := Cpu.withSeg { c₅ with eip := start + BitVec.ofNat 32 10 } .ss
    { c.seg .ss with base := 0 }
  have h₁ : c.step = some c₁ := step_here (i := .cli) hhere rfl rfl
  have h₂ : c₁.step = some c₂ := step_here (i := .cld) (here c₁ 1 rfl rfl rfl) rfl rfl
  have h₃ : c₂.step = some c₃ :=
    step_here (i := .xorAx) (here c₂ 2 rfl rfl rfl) (by rw [h.big]; rfl) rfl
  have h₄ : c₃.step = some c₄ :=
    (step_here (i := .movSeg .ds) (here c₃ 4 rfl rfl rfl) rfl rfl).trans
      (Cpu.exec_movSeg_real (c := { c₃ with eip := start + BitVec.ofNat 32 6 }) hreal hax .ds)
  have h₅ : c₄.step = some c₅ :=
    (step_here (i := .movSeg .es) (here c₄ 6 rfl rfl rfl) rfl rfl).trans
      (Cpu.exec_movSeg_real (c := { c₄ with eip := start + BitVec.ofNat 32 8 }) hreal hax .es)
  have h₆ : c₅.step = some c₆ :=
    (step_here (i := .movSeg .ss) (here c₅ 8 rfl rfl rfl) rfl rfl).trans
      (Cpu.exec_movSeg_real (c := { c₅ with eip := start + BitVec.ofNat 32 10 }) hreal hax .ss)
  refine ⟨c₆, .head h₁ (.head h₂ (.head h₃ (.head h₄ (.head h₅ (.single h₆))))), ?_, rfl⟩
  exact ⟨here c₆ 10 rfl rfl rfl, h.big, rfl, rfl, rfl, rfl, ⟨rfl, h.ds_limit, h.ds_up⟩⟩

/-! ## The switch -/

def flatCode : Descriptor := ⟨0, 0xFFFFFFFF, STA_X ||| STA_R, true, 0, true, true⟩

def flatData : Descriptor := ⟨0, 0xFFFFFFFF, STA_W, true, 0, true, true⟩

theorem low_flatCode : Descriptor.Low flatCode := ⟨rfl, by decide, rfl⟩

theorem low_flatData : Descriptor.Low flatData := ⟨rfl, by decide, rfl⟩

/-- Data of the block, in memory. -/
theorem Here.data {c : Cpu} {off : Nat} (h : Here bootmain c off) {place : Nat}
    {front post : List Byte} (hdata : (block bootmain).drop place = front ++ post) {k : Nat}
    (hk : k < front.length) :
    place + k < 1024 ∧ some (c.mem (0x7C00 + (place + k))) = front[k]? := by
  have hlength := block_length bootmain
  have hsplit := congrArg List.length hdata
  rw [List.length_drop, List.length_append] at hsplit
  refine ⟨by omega, ?_⟩
  rw [h.placed _ (by omega), ← List.getElem?_drop, hdata, List.getElem?_append_left hk]

/-- An entry of the bootstrap table. -/
theorem Here.descriptor {c : Cpu} {off : Nat} (h : Here bootmain c off) (hgdt : c.gdtBase = gdt)
    {sel : BitVec 16} {n : Nat} (hsel : (sel &&& 0xFFF8).setWidth 32 = BitVec.ofNat 32 n)
    {entry post : List Byte} (hentry : (block bootmain).drop (0x4C + n) = entry ++ post)
    (hlength : entry.length = 8) : c.descriptor sel = readBytes entry := by
  refine Descriptor.read_congr fun k hk => ?_
  obtain ⟨hroom, hbyte⟩ := h.data hentry (show k < entry.length by omega)
  have hplace : (c.gdtBase + (sel &&& 0xFFF8).setWidth 32 + BitVec.ofNat 32 k).toNat =
      0x7C00 + (0x4C + n + k) := by
    rw [hgdt, gdt, hsel, BitVec.add_assoc, BitVec.add_assoc, ← BitVec.ofNat_add,
      show (0x4C : Word) = BitVec.ofNat 32 0x4C from rfl, ← BitVec.ofNat_add, ← Nat.add_assoc,
      start_add hroom]
  rw [physical_low c (by omega), hplace, List.getD_eq_getElem?_getD, ← hbyte]
  rfl

theorem read_code :
    readBytes (asmSEG ((STA_X ||| STA_R).setWidth 8) 0x0 0xFFFFFFFF) = flatCode := by
  rw [asmSEG_eq, readBytes_SEG]
  rfl

theorem read_data : readBytes (asmSEG (STA_W.setWidth 8) 0x0 0xFFFFFFFF) = flatData := by
  rw [asmSEG_eq, readBytes_SEG]
  rfl

/-- Protected mode, with the bootstrap table. -/
structure InProtected (bootmain : Word) (c₀ c : Cpu) (off : Nat) : Prop where
  here : Here bootmain c off
  cs : c.cs = flatCode
  cr0 : c.cr0 = c₀.cr0 ||| 1
  mem : c.mem = c₀.mem
  intr : c.intr = false
  dir : c.dir = false
  gdtLimit : c.gdtLimit = 0x17
  gdtBase : c.gdtBase = gdt

/-- The table is loaded. -/
theorem load_table {c₀ c : Cpu} (h : InReal bootmain c₀ c 0x1E) :
    c.step = some { c with
      eip := start + BitVec.ofNat 32 0x23
      gdtLimit := 0x17
      gdtBase := gdt } := by
  have hbyte {k : Nat} (hk : k < 6) :
      c.loadByte (c.seg .ds) ((gdtdesc.setWidth 16 : BitVec 16).setWidth 32 + BitVec.ofNat 32 k) =
        (halfBytes 0x17 ++ wordBytes gdt)[k]? := by
    obtain ⟨hroom, hdata⟩ := h.here.data
      (show (block bootmain).drop 0x64 = (halfBytes 0x17 ++ wordBytes gdt) ++ [] from rfl) hk
    have hplace : ((gdtdesc.setWidth 16 : BitVec 16).setWidth 32 + BitVec.ofNat 32 k).toNat =
        0x7C00 + (0x64 + k) := by
      have hdesc : (gdtdesc.setWidth 16 : BitVec 16).setWidth 32 = start + BitVec.ofNat 32 0x64 := rfl
      rw [hdesc, BitVec.add_assoc, ← BitVec.ofNat_add, start_add hroom]
    rw [loadByte_low c h.ds (by omega), hplace, hdata]
  have hlimit : half (fun k => c.loadByte (c.seg .ds)
      ((gdtdesc.setWidth 16 : BitVec 16).setWidth 32 + BitVec.ofNat 32 k)) 0 = some 0x17 := by
    refine half_halfBytes fun i hi => ?_
    rw [hbyte (by omega), Nat.zero_add]
    exact List.getElem?_append_left hi
  have hbase : word (fun k => c.loadByte (c.seg .ds)
      ((gdtdesc.setWidth 16 : BitVec 16).setWidth 32 + BitVec.ofNat 32 k)) 2 = some gdt := by
    refine word_wordBytes fun i hi => ?_
    rw [hbyte (by omega), Nat.add_comm]
    rfl
  refine (h.step (i := .lgdt (gdtdesc.setWidth 16)) rfl rfl).trans ?_
  refine (Cpu.exec_lgdt (c := { c with eip := start + BitVec.ofNat 32 0x23 }) hlimit hbase).trans ?_
  show some { c with
    eip := start + BitVec.ofNat 32 0x23
    gdtLimit := 0x17
    gdtBase := if c.cs.big then gdt else gdt &&& 0xFFFFFF } = _
  rw [h.big]
  rfl

theorem switch {c₀ c : Cpu} (hunpaged : c₀.cr0 &&& CR0_PG = 0) (h : InReal bootmain c₀ c 0x1E) :
    ∃ c', Cpu.Reaches c c' ∧ InProtected bootmain c₀ c' 0x32 ∧ c'.kbc = c.kbc := by
  have here (c' : Cpu) (off : Nat) (heip : c'.eip = start + BitVec.ofNat 32 off)
      (hcs : c'.cs = c.cs) (hmem : c'.mem = c.mem) : Here bootmain c' off :=
    ⟨heip, by rw [hcs]; exact h.here.cs, by rw [hmem]; exact h.here.placed⟩
  let c₁ : Cpu := { c with
    eip := start + BitVec.ofNat 32 0x23
    gdtLimit := 0x17
    gdtBase := gdt }
  let c₂ : Cpu := { c₁ with eip := start + BitVec.ofNat 32 0x26, eax := c.cr0 }
  let c₃ : Cpu := { c₂ with
    eip := start + BitVec.ofNat 32 0x2A
    eax := c.cr0 ||| 1
    zero := (c.cr0 ||| 1) == 0 }
  let c₄ : Cpu := { c₃ with eip := start + BitVec.ofNat 32 0x2D, cr0 := c.cr0 ||| 1 }
  let c₅ : Cpu := { c₄ with eip := start + BitVec.ofNat 32 0x32, cs := flatCode }
  have hone : (0x1 : Byte).signExtend 32 = (1 : Word) := by decide
  have hunpaged' : (c.cr0 ||| 1) &&& CR0_PG = 0 := by
    rw [or_and, h.cr0, hunpaged]
    rfl
  have h₂ : c₁.step = some c₂ :=
    step_here (i := .movCr0Eax) (here c₁ 0x23 rfl rfl rfl) rfl rfl
  have h₃ : c₂.step = some c₃ :=
    step_here (i := .orEax 0x1) (here c₂ 0x26 rfl rfl rfl) (by rw [h.big]; rfl) rfl
  have h₄ : c₃.step = some c₄ :=
    (step_here (i := .movEaxCr0) (here c₃ 0x2A rfl rfl rfl) rfl rfl).trans (if_pos hunpaged')
  have h₅ : c₄.step = some c₅ := by
    refine (step_here (i := .ljmp PROT_MODE_CSEG (protcseg.setWidth 16)) (here c₄ 0x2D rfl rfl rfl)
      (by rw [h.big]; rfl) rfl).trans ?_
    refine Cpu.exec_ljmp_protected (c := { c₄ with eip := start + BitVec.ofNat 32 0x32 }) ?_ ?_
    · exact bne_iff_ne.mpr (or_and_ne_zero c.cr0 (by decide))
    · refine Cpu.load_eq rfl ?_ rfl
      exact ((here c₄ 0x2D rfl rfl rfl).descriptor (n := 8) rfl rfl (by rfl) rfl).trans read_code
  refine ⟨c₅, .head (load_table h) (.head h₂ (.head h₃ (.head h₄ (.single h₅)))), ?_, rfl⟩
  exact ⟨⟨rfl, low_flatCode, h.here.placed⟩, rfl, by rw [← h.cr0], h.mem, h.intr, h.dir, rfl, rfl⟩

/-! ## In protected mode -/

theorem InProtected.isProtected {c₀ c : Cpu} {off : Nat} (h : InProtected bootmain c₀ c off) :
    c.isProtected = true := by
  rw [Cpu.isProtected, h.cr0]
  exact bne_iff_ne.mpr (or_and_ne_zero c₀.cr0 (by decide))

/-- A segment register gets the flat data segment. -/
theorem InProtected.movSeg {c₀ c : Cpu} {off : Nat} (h : InProtected bootmain c₀ c off)
    (hax : (c.eax.setWidth 16 : BitVec 16) = PROT_MODE_DSEG) (r : SegReg) {post : List Byte}
    (hcode : (block bootmain).drop off = encode (.movSeg r) ++ post) :
    c.step = some (Cpu.withSeg { c with eip := start + BitVec.ofNat 32 (off + 2) } r flatData) ∧
      InProtected bootmain c₀
        (Cpu.withSeg { c with eip := start + BitVec.ofNat 32 (off + 2) } r flatData) (off + 2) := by
  have hentry : c.descriptor PROT_MODE_DSEG = flatData :=
    (h.here.descriptor h.gdtBase (n := 16) rfl (by rfl) rfl).trans read_data
  have hnames : c.names PROT_MODE_DSEG = true := by
    rw [Cpu.names, h.gdtLimit]
    rfl
  have hload : c.load (c.eax.setWidth 16) r.takes = some flatData := by
    rw [hax]
    refine Cpu.load_eq hnames hentry ?_
    cases r
    all_goals rfl
  refine ⟨(step_here (i := .movSeg r) h.here rfl hcode).trans ?_, ?_⟩
  · exact Cpu.exec_movSeg_protected (c := { c with eip := start + BitVec.ofNat 32 (off + 2) })
      h.isProtected hload
  · exact ⟨⟨rfl, h.here.cs, h.here.placed⟩, h.cs, h.cr0, h.mem, h.intr, h.dir, h.gdtLimit,
      h.gdtBase⟩

/-- The state in which `bootmain` starts: flat segments, protected mode, no
interrupts, all address lines, and below `start` the address behind the call. -/
structure Entered (bootmain : Word) (c₀ c : Cpu) : Prop where
  eip : c.eip = bootmain
  esp : c.esp = start - 4
  returns : readLE c.mem 0x7BFC 4 = spin.toNat
  cs : c.cs = flatCode
  seg : ∀ r, c.seg r = flatData
  cr0 : c.cr0 = c₀.cr0 ||| CR0_PE
  intr : c.intr = false
  dir : c.dir = false
  a20 : c.kbc.a20 = true
  mem : ∀ a, a < 0x7BFC ∨ 0x7C00 ≤ a → c.mem a = c₀.mem a

/-- All segments become flat. -/
theorem flatten {c₀ c : Cpu} (h : InProtected bootmain c₀ c 0x32) :
    ∃ c', Cpu.Reaches c c' ∧ InProtected bootmain c₀ c' 0x40 ∧ (∀ r, c'.seg r = flatData) ∧
      c'.kbc = c.kbc := by
  let c₁ : Cpu := { c with
    eip := start + BitVec.ofNat 32 0x36
    eax := withHalf c.eax PROT_MODE_DSEG }
  have hax : (c₁.eax.setWidth 16 : BitVec 16) = PROT_MODE_DSEG := low_withHalf _ _
  have h₁ : c.step = some c₁ :=
    step_here (i := .movAx PROT_MODE_DSEG) h.here (by rw [h.cs]; rfl) rfl
  have hp₁ : InProtected bootmain c₀ c₁ 0x36 :=
    ⟨⟨rfl, h.here.cs, h.here.placed⟩, h.cs, h.cr0, h.mem, h.intr, h.dir, h.gdtLimit, h.gdtBase⟩
  obtain ⟨hds, hp₂⟩ := hp₁.movSeg hax .ds rfl
  obtain ⟨hes, hp₃⟩ := hp₂.movSeg hax .es rfl
  obtain ⟨hfs, hp₄⟩ := hp₃.movSeg hax .fs rfl
  obtain ⟨hgs, hp₅⟩ := hp₄.movSeg hax .gs rfl
  obtain ⟨hss, hp₆⟩ := hp₅.movSeg hax .ss rfl
  refine ⟨_, .head h₁ (.head hds (.head hes (.head hfs (.head hgs (.single hss))))), hp₆, ?_, rfl⟩
  intro r
  cases r
  all_goals rfl

theorem enter {c₀ c : Cpu} (h : InProtected bootmain c₀ c 0x40) (hseg : ∀ r, c.seg r = flatData)
    (ha20 : c.kbc.a20 = true) : ∃ c', Cpu.Reaches c c' ∧ Entered bootmain c₀ c' := by
  let c₁ : Cpu := { c with eip := start + BitVec.ofNat 32 0x45, esp := start }
  let c₂ : Cpu := { c₁ with
    mem := overlay c.mem 0x7BFC 4 fun i => (wordBytes spin).getD i 0
    esp := start - 4
    eip := bootmain }
  have h₁ : c.step = some c₁ := step_here (i := .movEsp start) h.here (by rw [h.cs]; rfl) rfl
  have hstore : Cpu.storeBytes { c₁ with eip := spin } (c.seg .ss) (start - 4) (wordBytes spin) =
      some c₂.mem := by
    rw [hseg]
    exact storeBytes_low _ low_flatData (by decide)
  have hrel : spin + (bootmain - spin) = bootmain := by
    rw [BitVec.add_comm, BitVec.sub_add_cancel]
  have hbig : c.cs.big = true := by
    rw [h.cs]
    rfl
  have here : Here bootmain c₁ 0x45 := ⟨rfl, h.here.cs, h.here.placed⟩
  have hcall : c₁.step = some c₂ := by
    refine (step_here (i := .call (bootmain - spin)) here hbig rfl).trans ?_
    refine (Cpu.exec_call (c := { c₁ with eip := spin }) hbig hstore (bootmain - spin)).trans ?_
    show some { c₁ with
      mem := c₂.mem
      esp := start - 4
      eip := spin + (bootmain - spin) } = _
    rw [hrel]
  refine ⟨c₂, .head h₁ (.single hcall), ?_⟩
  constructor
  · rfl
  · rfl
  · exact readLE_storeWord c.mem 0x7BFC spin
  · exact h.cs
  · exact hseg
  · exact h.cr0
  · exact h.intr
  · exact h.dir
  · exact ha20
  · intro a ha
    show storeWord c.mem 0x7BFC spin a = _
    rw [storeWord_outside _ _ (by omega), h.mem]

/-- Should `bootmain` return, the processor stays where it is. -/
theorem spins {c : Cpu} (heip : c.eip = spin) (hcs : c.cs = flatCode)
    (hplaced : ∀ j < (block bootmain).length, some (c.mem (0x7C00 + j)) = (block bootmain)[j]?) :
    c.step = some c := by
  have here : Here bootmain c 0x4A := ⟨heip, by rw [hcs]; exact low_flatCode, hplaced⟩
  have hbig : c.cs.big = true := by
    rw [hcs]
    rfl
  have hrel : start + BitVec.ofNat 32 0x4C + (0xFE : Byte).signExtend 32 = c.eip := by
    rw [heip]
    decide
  refine (step_here (i := .jmp 0xFE) here rfl rfl).trans ?_
  show some { c with
    eip := if c.cs.big then start + BitVec.ofNat 32 0x4C + (0xFE : Byte).signExtend 32 else _ } = _
  rw [hbig, if_pos rfl, hrel]

theorem reaches_bootmain {sector rest : List Byte}
    (hsign : sign (block bootmain ++ rest) = some sector) {c : Cpu} (h : Bios sector c) :
    ∃ c', Cpu.Reaches c c' ∧ Entered bootmain c c' := by
  obtain ⟨c₁, hreach₁, h₁, hkbc₁⟩ := prologue h (h.here hsign)
  obtain ⟨c₂, hreach₂, h₂, hkbc₂⟩ := @send bootmain c c₁ 0xA h₁ 0xD1 0x64 _ rfl (by
    rw [hkbc₁]
    exact h.running)
  obtain ⟨c₃, hreach₃, h₃, hkbc₃⟩ := @send bootmain c c₂ 0x14 h₂ 0xDF 0x60 _ rfl (by
    rw [hkbc₂, Controller.resets, outputPort_sent]
    rfl)
  obtain ⟨c₄, hreach₄, h₄, hkbc₄⟩ := switch h.unpaged h₃
  obtain ⟨c₅, hreach₅, h₅, hseg, hkbc₅⟩ := flatten h₄
  have ha20 : c₅.kbc.a20 = true := by
    rw [hkbc₅, hkbc₄, hkbc₃, hkbc₂, Controller.a20, outputPort_sent]
    rfl
  obtain ⟨c₆, hreach₆, hentered⟩ := enter h₅ hseg ha20
  refine ⟨c₆, ?_, hentered⟩
  exact hreach₁.trans (hreach₂.trans (hreach₃.trans (hreach₄.trans (hreach₅.trans hreach₆))))

/-- The processor runs the boot sector up to `bootmain`, however often the keyboard
controller is not ready. -/
theorem boot_enters {sector rest : List Byte}
    (hsign : sign (block bootmain ++ rest) = some sector) {c : Cpu} (h : Bios sector c) :
    sector.length = 512 ∧ sector.drop 510 = [0x55, 0xAA] ∧
      ∃ c', Cpu.Reaches c c' ∧ Entered bootmain c c' ∧
        ∀ c'' : Cpu, c''.eip = spin → c''.cs = c'.cs →
          (∀ j < (block bootmain).length, c''.mem (0x7C00 + j) = c'.mem (0x7C00 + j)) →
            c''.step = some c'' := by
  obtain ⟨_, hlength, _, hsigned⟩ := sign_spec hsign
  have hhere := h.here hsign
  obtain ⟨c', hreach, hentered⟩ := reaches_bootmain hsign h
  refine ⟨hlength, hsigned, c', hreach, hentered, fun c'' heip hcs hmem => ?_⟩
  refine @spins bootmain c'' heip (hcs.trans hentered.cs) fun j hj => ?_
  rw [hmem j hj, hentered.mem _ (.inr (Nat.le_add_right _ _)), hhere.placed j hj]

/-! ## A small boot sector -/

def smallSector : List Byte := block 0x7D0A ++ List.replicate 404 0 ++ [0x55, 0xAA]

theorem smallSector_signed : sign (block 0x7D0A ++ []) = some smallSector := by
  have hlength := block_length 0x7D0A
  have htake : (block 0x7D0A).take 1000 = block 0x7D0A :=
    List.take_of_length_le (by omega)
  rw [List.append_nil, sign, htake, hlength]
  rfl

def smallMem : Memory := fun a => smallSector.getD (a - 0x7C00) 0

theorem smallMem_loaded {j : Nat} (hj : j < 512) :
    some (smallMem (0x7C00 + j)) = smallSector[j]? := by
  have hlength := (sign_spec smallSector_signed).2.1
  rw [smallMem, Nat.add_sub_cancel_left, List.getD_eq_getElem?_getD,
    List.getElem?_eq_getElem (by omega), Option.getD_some]

def realSegment : Descriptor := ⟨0, 0xFFFF, STA_W, true, 0, true, false⟩

/-- A controller that is not ready for three polls. -/
def smallCpu (mem : Memory) : Cpu where
  eip := start
  eax := 0xAA55
  esp := 0x7000
  cr0 := 0x10
  zero := false
  intr := true
  dir := true
  cs := realSegment
  seg := fun _ => { realSegment with base := 0x400 }
  gdtLimit := 0
  gdtBase := 0
  mem := mem
  kbc := ⟨⟨[⟨0x1E, rfl⟩, ⟨0x02, rfl⟩, ⟨0x1E, rfl⟩], ⟨0x1C, rfl⟩⟩,
    fun _ => ⟨[⟨0x1E, rfl⟩], ⟨0x1C, rfl⟩⟩, none, 0x01⟩

theorem smallCpu_bios {mem : Memory}
    (hloaded : ∀ j < 512, some (mem (0x7C00 + j)) = smallSector[j]?) :
    Bios smallSector (smallCpu mem) where
  eip := rfl
  cs := ⟨rfl, show 0xFFFF ≤ (0xFFFF : Word).toNat by decide,
    show realSegment.expandsDown = false from rfl⟩
  loaded := hloaded
  big := rfl
  real := show (0x10 : Word) &&& CR0_PE = 0 by decide
  unpaged := show (0x10 : Word) &&& CR0_PG = 0 by decide
  ds_limit := show 0xFFFF ≤ (0xFFFF : Word).toNat by decide
  ds_up := show realSegment.expandsDown = false from rfl
  running := show (!(0x01 : Byte).getLsbD 0) = false by decide

theorem boot_enters_small :
    smallSector.length = 512 ∧ smallSector.drop 510 = [0x55, 0xAA] ∧
      ∃ c', Cpu.Reaches (smallCpu smallMem) c' ∧ Entered 0x7D0A (smallCpu smallMem) c' ∧
        ∀ c'' : Cpu, c''.eip = spin → c''.cs = c'.cs →
          (∀ j < (block 0x7D0A).length, c''.mem (0x7C00 + j) = c'.mem (0x7C00 + j)) →
            c''.step = some c'' :=
  boot_enters smallSector_signed (smallCpu_bios fun _ hj => smallMem_loaded hj)

end JOSKernel.Boot.BootBlock
