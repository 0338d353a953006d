import JOSKernel.Boot.Paging

/-!
# The processor that starts the kernel (`kern/entry.S`, `inc/mmu.h`)

The instructions of `entry.S` as bytes, and a processor that fetches, decodes
and executes them.  It goes through the page tables as soon as they are on.
-/

namespace JOSKernel.Boot.Processor

open JOSKernel.General.ByteMemory
open JOSKernel.General.MachineInt
open JOSKernel.Boot.Paging

def CR0_PE : Word := 0x00000001
def CR0_WP : Word := 0x00010000
def CR0_PG : Word := 0x80000000

/-! ## Instructions -/

/-- The instructions of `entry.S`; jumps and calls are relative to the next one. -/
inductive Instr where
  | movw (value : BitVec 16) (addr : Word)
  | movEax (value : Word)
  | movEaxCr3
  | movCr0Eax
  | orEax (value : Word)
  | movEaxCr0
  | jmpEax
  | movEbp (value : Word)
  | movEsp (value : Word)
  | call (rel : Word)
  | jmp (rel : Byte)

def encode : Instr → List Byte
  | .movw value addr => 0x66 :: 0xC7 :: 0x05 :: wordBytes addr ++ halfBytes value
  | .movEax value => 0xB8 :: wordBytes value
  | .movEaxCr3 => [0x0F, 0x22, 0xD8]
  | .movCr0Eax => [0x0F, 0x20, 0xC0]
  | .orEax value => 0x0D :: wordBytes value
  | .movEaxCr0 => [0x0F, 0x22, 0xC0]
  | .jmpEax => [0xFF, 0xE0]
  | .movEbp value => 0xBD :: wordBytes value
  | .movEsp value => 0xBC :: wordBytes value
  | .call rel => 0xE8 :: wordBytes rel
  | .jmp rel => [0xEB, rel]

def half (code : Nat → Option Byte) (k : Nat) : Option (BitVec 16) := do
  let b₀ ← code k
  let b₁ ← code (k + 1)
  some (BitVec.ofNat 16 (b₀.toNat + 256 * b₁.toNat))

def word (code : Nat → Option Byte) (k : Nat) : Option Word := do
  let b₀ ← code k
  let b₁ ← code (k + 1)
  let b₂ ← code (k + 2)
  let b₃ ← code (k + 3)
  some (BitVec.ofNat 32 (b₀.toNat + 256 * b₁.toNat + 65536 * b₂.toNat + 16777216 * b₃.toNat))

/-- The instruction that the bytes `code` begin with, and its length. -/
def decode (code : Nat → Option Byte) : Option (Instr × Nat) := do
  let opcode ← code 0
  if opcode = 0x66 then do
    let modrm ← code 2
    if (← code 1) = 0xC7 ∧ modrm = 0x05 then some (.movw (← half code 7) (← word code 3), 9)
    else none
  else if opcode = 0xB8 then some (.movEax (← word code 1), 5)
  else if opcode = 0x0D then some (.orEax (← word code 1), 5)
  else if opcode = 0xBD then some (.movEbp (← word code 1), 5)
  else if opcode = 0xBC then some (.movEsp (← word code 1), 5)
  else if opcode = 0xE8 then some (.call (← word code 1), 5)
  else if opcode = 0xEB then some (.jmp (← code 1), 2)
  else if opcode = 0xFF then
    if (← code 1) = 0xE0 then some (.jmpEax, 2) else none
  else if opcode = 0x0F then do
    let second ← code 1
    let modrm ← code 2
    if second = 0x22 ∧ modrm = 0xD8 then some (.movEaxCr3, 3)
    else if second = 0x22 ∧ modrm = 0xC0 then some (.movEaxCr0, 3)
    else if second = 0x20 ∧ modrm = 0xC0 then some (.movCr0Eax, 3)
    else none
  else none

theorem half_halfBytes {code : Nat → Option Byte} {k : Nat} {v : BitVec 16}
    (h : ∀ i < 2, code (k + i) = (halfBytes v)[i]?) : half code k = some v := by
  have hv := v.isLt
  have h₀ : code k = some (BitVec.ofNat 8 v.toNat) := h 0 (by decide)
  have h₁ : code (k + 1) = some (BitVec.ofNat 8 (v.toNat / 256)) := h 1 (by decide)
  simp only [half, h₀, h₁, Option.bind_eq_bind, Option.bind_some, Option.some.injEq]
  apply BitVec.eq_of_toNat_eq
  simp only [BitVec.toNat_ofNat, Nat.reducePow] at hv ⊢
  omega

theorem word_wordBytes {code : Nat → Option Byte} {k : Nat} {v : Word}
    (h : ∀ i < 4, code (k + i) = (wordBytes v)[i]?) : word code k = some v := by
  have hv := v.isLt
  have h₀ : code k = some (BitVec.ofNat 8 v.toNat) := h 0 (by decide)
  have h₁ : code (k + 1) = some (BitVec.ofNat 8 (v.toNat / 256)) := h 1 (by decide)
  have h₂ : code (k + 2) = some (BitVec.ofNat 8 (v.toNat / 65536)) := h 2 (by decide)
  have h₃ : code (k + 3) = some (BitVec.ofNat 8 (v.toNat / 16777216)) := h 3 (by decide)
  simp only [word, h₀, h₁, h₂, h₃, Option.bind_eq_bind, Option.bind_some, Option.some.injEq]
  apply BitVec.eq_of_toNat_eq
  simp only [BitVec.toNat_ofNat, Nat.reducePow] at hv ⊢
  omega

/-- An instruction is decoded as what it was encoded from. -/
theorem decode_encode {code : Nat → Option Byte} (i : Instr)
    (h : ∀ k < (encode i).length, code k = (encode i)[k]?) :
    decode code = some (i, (encode i).length) := by
  have operand {opcode : Byte} {v : Word} (hbytes : encode i = opcode :: wordBytes v) :
      code 0 = some opcode ∧ word code 1 = some v := by
    rw [hbytes] at h
    refine ⟨h 0 (Nat.succ_pos _), word_wordBytes fun j hj => ?_⟩
    rw [Nat.add_comm, h (j + 1) (Nat.succ_lt_succ hj), List.getElem?_cons_succ]
  cases i with
  | movw value addr =>
      have h₀ : code 0 = some 0x66 := h 0 (by simp [encode])
      have h₁ : code 1 = some 0xC7 := h 1 (by simp [encode])
      have h₂ : code 2 = some 0x05 := h 2 (by simp [encode])
      have haddr : word code 3 = some addr := by
        refine word_wordBytes fun j hj => ?_
        rw [h (3 + j) (by simp [encode, wordBytes, halfBytes]; omega), Nat.add_comm 3]
        show (wordBytes addr ++ halfBytes value)[j]? = _
        exact List.getElem?_append_left hj
      have hvalue : half code 7 = some value := by
        refine half_halfBytes fun j hj => ?_
        rw [h (7 + j) (by simp [encode, wordBytes, halfBytes]; omega), Nat.add_comm 7]
        rfl
      simp [decode, h₀, h₁, h₂, haddr, hvalue, encode, wordBytes, halfBytes]
  | movEax value =>
      obtain ⟨h₀, h₁⟩ := operand rfl
      simp [decode, h₀, h₁, encode, wordBytes]
  | movEaxCr3 =>
      have h₀ : code 0 = some 0x0F := h 0 (by decide)
      have h₁ : code 1 = some 0x22 := h 1 (by decide)
      have h₂ : code 2 = some 0xD8 := h 2 (by decide)
      simp [decode, h₀, h₁, h₂, encode]
  | movCr0Eax =>
      have h₀ : code 0 = some 0x0F := h 0 (by decide)
      have h₁ : code 1 = some 0x20 := h 1 (by decide)
      have h₂ : code 2 = some 0xC0 := h 2 (by decide)
      simp [decode, h₀, h₁, h₂, encode]
  | orEax value =>
      obtain ⟨h₀, h₁⟩ := operand rfl
      simp [decode, h₀, h₁, encode, wordBytes]
  | movEaxCr0 =>
      have h₀ : code 0 = some 0x0F := h 0 (by decide)
      have h₁ : code 1 = some 0x22 := h 1 (by decide)
      have h₂ : code 2 = some 0xC0 := h 2 (by decide)
      simp [decode, h₀, h₁, h₂, encode]
  | jmpEax =>
      have h₀ : code 0 = some 0xFF := h 0 (by decide)
      have h₁ : code 1 = some 0xE0 := h 1 (by decide)
      simp [decode, h₀, h₁, encode]
  | movEbp value =>
      obtain ⟨h₀, h₁⟩ := operand rfl
      simp [decode, h₀, h₁, encode, wordBytes]
  | movEsp value =>
      obtain ⟨h₀, h₁⟩ := operand rfl
      simp [decode, h₀, h₁, encode, wordBytes]
  | call rel =>
      obtain ⟨h₀, h₁⟩ := operand rfl
      simp [decode, h₀, h₁, encode, wordBytes]
  | jmp rel =>
      have h₀ : code 0 = some 0xEB := h 0 (by simp [encode])
      have h₁ : code 1 = some rel := h 1 (by simp [encode])
      simp [decode, h₀, h₁, encode]

theorem or_and (x c d : Word) : (x ||| c) &&& d = x &&& d ||| c &&& d := by
  apply BitVec.eq_of_getLsbD_eq
  intro i _
  simp only [BitVec.getLsbD_and, BitVec.getLsbD_or, Bool.and_or_distrib_right]

theorem or_and_ne_zero (x : Word) {c d : Word} (h : c &&& d ≠ 0) : (x ||| c) &&& d ≠ 0 := by
  intro hzero
  rw [or_and] at hzero
  exact h (BitVec.or_eq_zero_iff.mp hzero).2

/-! ## The processor -/

structure Machine where
  eip : Word
  eax : Word
  ebp : Word
  esp : Word
  cr0 : Word
  cr3 : Word
  mem : Memory

/-- Where the processor finds a linear address; the segments are flat. -/
def Machine.access (m : Machine) (la : Word) (write : Bool) : Option Word :=
  if m.cr0 &&& CR0_PG = 0 then some la
  else translate (decide (m.cr0 &&& CR0_WP ≠ 0)) m.mem m.cr3 la write

def Machine.loadByte (m : Machine) (la : Word) : Option Byte := do
  let pa ← m.access la false
  some (m.mem pa.toNat)

def Machine.storeBytes (m : Machine) : Word → List Byte → Option Memory :=
  storeVia (fun la => (m.access la true).map BitVec.toNat) m.mem

/-- Execute `i`, with `eip` behind it. -/
def Machine.exec (m : Machine) : Instr → Option Machine
  | .movw value addr => do
      let mem ← m.storeBytes addr (halfBytes value)
      some { m with mem := mem }
  | .movEax value => some { m with eax := value }
  | .movEaxCr3 => some { m with cr3 := m.eax }
  | .movCr0Eax => some { m with eax := m.cr0 }
  | .orEax value => some { m with eax := m.eax ||| value }
  | .movEaxCr0 => some { m with cr0 := m.eax }
  | .jmpEax => some { m with eip := m.eax }
  | .movEbp value => some { m with ebp := value }
  | .movEsp value => some { m with esp := value }
  | .call rel => do
      let mem ← m.storeBytes (m.esp - 4) (wordBytes m.eip)
      some { m with mem := mem, esp := m.esp - 4, eip := m.eip + rel }
  | .jmp rel => some { m with eip := m.eip + rel.signExtend 32 }

def Machine.step (m : Machine) : Option Machine := do
  let (i, size) ← decode fun k => m.loadByte (m.eip + BitVec.ofNat 32 k)
  { m with eip := m.eip + BitVec.ofNat 32 size }.exec i

def Machine.run : Nat → Machine → Option Machine
  | 0, m => some m
  | n + 1, m => do
      let m ← m.step
      m.run n

theorem run_succ {m m' : Machine} (h : m.step = some m') (n : Nat) :
    m.run (n + 1) = m'.run n := by
  rw [Machine.run, h]
  rfl

/-! ## Storing -/

/-- Bytes stored to consecutive addresses that are found at consecutive places. -/
theorem storeBytes_eq {m : Machine} {la pa : Word} {bs : List Byte}
    (h : ∀ i < bs.length,
      m.access (la + BitVec.ofNat 32 i) true = some (pa + BitVec.ofNat 32 i))
    (hfit : pa.toNat + bs.length < 4294967296) :
    m.storeBytes la bs = some (overlay m.mem pa.toNat bs.length fun i => bs.getD i 0) := by
  refine storeVia_eq m.mem fun i hi => ?_
  rw [h i hi, Option.map_some, BitVec.toNat_add, BitVec.toNat_ofNat]
  simp only [Nat.reducePow, Option.some.injEq]
  omega

end JOSKernel.Boot.Processor
