import JOSKernel.Boot.Main
import JOSKernel.Boot.Processor

/-!
# Into the kernel (`kern/entry.S`)

The kernel is linked above `KERNBASE` and starts at its load address.  Its first
instructions turn paging on while they are fetched from low addresses, jump up,
set the stack and call `i386_init`.  The processor fetches the bytes that the
boot loader has put into memory, through the page tables once they are on.
-/

namespace JOSKernel.Boot.Entry

open JOSKernel.General.ByteMemory
open JOSKernel.General.MachineInt
open JOSKernel.Kern.ConsoleOutput (KERNBASE)
open JOSKernel.Boot.Main
open JOSKernel.Boot.Paging
open JOSKernel.Boot.Processor

def KSTKSIZE : Nat := 8 * PGSIZE

/-! ## The code of `entry.S` -/

structure Symbols where
  entry : Word
  bootstacktop : Word
  entry_pgdir : Word
  entry_pgtable : Word
  i386_init : Word

def relocated (s : Symbols) : Word := s.entry + 35

def spin (s : Symbols) : Word := s.entry + 50

def text (s : Symbols) : List Instr :=
  [.movw 0x1234 0x472,
    .movEax (RELOC s.entry_pgdir),
    .movEaxCr3,
    .movCr0Eax,
    .orEax (CR0_PE ||| CR0_PG ||| CR0_WP),
    .movEaxCr0,
    .movEax (relocated s),
    .jmpEax,
    .movEbp 0,
    .movEsp s.bootstacktop,
    .call (s.i386_init - spin s),
    .jmp 0xFE]

def code (s : Symbols) : List Byte := (text s).flatMap encode

/-- The two labels inside the code. -/
theorem labels (s : Symbols) :
    relocated s = s.entry + BitVec.ofNat 32 (((text s).take 8).flatMap encode).length ∧
      spin s = s.entry + BitVec.ofNat 32 (((text s).take 11).flatMap encode).length :=
  ⟨rfl, rfl⟩

/-- Where the linker script starts. -/
def LINK : Nat := 0xF0100000

/-- The kernel is linked into the first four megabytes, and its stack is apart
from its code and from its page tables. -/
structure Linked (s : Symbols) : Prop where
  entry_low : LINK ≤ s.entry.toNat
  entry_high : s.entry.toNat + (code s).length ≤ KERNBASE + PTSIZE
  stack_low : LINK + KSTKSIZE ≤ s.bootstacktop.toNat
  stack_high : s.bootstacktop.toNat ≤ KERNBASE + PTSIZE
  dir_low : LINK ≤ s.entry_pgdir.toNat
  dir_aligned : s.entry_pgdir.toNat % PGSIZE = 0
  table_low : LINK ≤ s.entry_pgtable.toNat
  table_aligned : s.entry_pgtable.toNat % PGSIZE = 0
  stack_code : s.bootstacktop.toNat ≤ s.entry.toNat ∨
    s.entry.toNat + (code s).length + KSTKSIZE ≤ s.bootstacktop.toNat
  stack_dir : s.bootstacktop.toNat ≤ s.entry_pgdir.toNat ∨
    s.entry_pgdir.toNat + PGSIZE + KSTKSIZE ≤ s.bootstacktop.toNat
  stack_table : s.bootstacktop.toNat ≤ s.entry_pgtable.toNat ∨
    s.entry_pgtable.toNat + PGSIZE + KSTKSIZE ≤ s.bootstacktop.toNat

/-- The code and the page tables are in memory, at their load addresses. -/
structure Loaded (s : Symbols) (mem : Memory) : Prop where
  code : ∀ j < (code s).length, some (mem ((RELOC s.entry).toNat + j)) = (code s)[j]?
  tables : EntryTables mem s.entry_pgdir s.entry_pgtable

/-- Memory that was changed below the kernel or on its stack only. -/
def Spared (s : Symbols) (mem mem' : Memory) : Prop :=
  ∀ a, 0x100000 ≤ a →
    a + KERNBASE + KSTKSIZE < s.bootstacktop.toNat ∨ s.bootstacktop.toNat ≤ a + KERNBASE →
      mem' a = mem a

theorem RELOC_toNat {x : Word} (h : KERNBASE ≤ x.toNat) : (RELOC x).toNat = x.toNat - KERNBASE := by
  have hx := x.isLt
  have hbase : KERNBASE = 4026531840 := rfl
  rw [RELOC, BitVec.toNat_sub, kernbase_toNat]
  simp only [Nat.reducePow, Nat.reduceSub] at hx ⊢
  omega

theorem Loaded.spared {s : Symbols} (hlinked : Linked s) {mem mem' : Memory} (h : Loaded s mem)
    (hspared : Spared s mem mem') : Loaded s mem' := by
  have hbase : KERNBASE = 4026531840 := rfl
  have hlink : LINK = 4027580416 := rfl
  have hsize : PGSIZE = 4096 := rfl
  have hstack : KSTKSIZE = 32768 := rfl
  have hentry := hlinked.entry_low
  have hdir := hlinked.dir_low
  have htable := hlinked.table_low
  have hcode := hlinked.stack_code
  have hoffDir := hlinked.stack_dir
  have hoffTable := hlinked.stack_table
  constructor
  · intro j hj
    have hplace := RELOC_toNat (show KERNBASE ≤ s.entry.toNat by omega)
    rw [hspared _ (by omega) (by omega)]
    exact h.code j hj
  · have hplaceDir := RELOC_toNat (show KERNBASE ≤ s.entry_pgdir.toNat by omega)
    have hplaceTable := RELOC_toNat (show KERNBASE ≤ s.entry_pgtable.toNat by omega)
    refine ⟨h.tables.aligned_dir, h.tables.aligned_table, ?_, ?_⟩
    · intro i hi
      have hentries : NPDENTRIES = 1024 := rfl
      rw [← h.tables.dir i hi]
      exact readLE_congr fun j hj => hspared _ (by omega) (by omega)
    · intro i hi
      have hentries : NPTENTRIES = 1024 := rfl
      rw [← h.tables.table i hi]
      exact readLE_congr fun j hj => hspared _ (by omega) (by omega)

/-! ## Fetching -/

/-- From `eip` on the processor finds the code from `off` on. -/
def Located (s : Symbols) (m : Machine) (off : Nat) : Prop :=
  ∀ k, off + k < (code s).length →
    m.loadByte (m.eip + BitVec.ofNat 32 k) = (code s)[off + k]?

/-- One step along the code. -/
theorem step_located {s : Symbols} {m : Machine} {base : Word} {off : Nat}
    (heip : m.eip = base + BitVec.ofNat 32 off) (h : Located s m off) {i : Instr} {post : List Byte}
    (hcode : (code s).drop off = encode i ++ post) :
    m.step = { m with eip := base + BitVec.ofNat 32 (off + (encode i).length) }.exec i := by
  have hdecode : decode (fun k => m.loadByte (m.eip + BitVec.ofNat 32 k)) =
      some (i, (encode i).length) := by
    refine decode_encode i fun k hk => ?_
    have hget : (code s)[off + k]? = (encode i)[k]? := by
      rw [← List.getElem?_drop, hcode, List.getElem?_append_left hk]
    have hin : off + k < (code s).length := by
      have hlength := congrArg List.length hcode
      rw [List.length_drop, List.length_append] at hlength
      omega
    rw [h k hin, hget]
  rw [Machine.step, hdecode, BitVec.ofNat_add, ← BitVec.add_assoc, ← heip]
  rfl

theorem located_of_access {s : Symbols} {m : Machine} {off : Nat} (hlinked : Linked s)
    (hloaded : Loaded s m.mem)
    (h : ∀ k, off + k < (code s).length →
      m.access (m.eip + BitVec.ofNat 32 k) false =
        some (RELOC s.entry + BitVec.ofNat 32 (off + k))) : Located s m off := by
  have hbase : KERNBASE = 4026531840 := rfl
  have hlink : LINK = 4027580416 := rfl
  have hsize : PTSIZE = 4194304 := rfl
  have hlow := hlinked.entry_low
  have hhigh := hlinked.entry_high
  intro k hk
  have hplace := RELOC_toNat (show KERNBASE ≤ s.entry.toNat by omega)
  have hsum : (RELOC s.entry + BitVec.ofNat 32 (off + k)).toNat =
      (RELOC s.entry).toNat + (off + k) := by
    rw [BitVec.toNat_add, BitVec.toNat_ofNat]
    simp only [Nat.reducePow]
    omega
  rw [Machine.loadByte, h k hk]
  show some (m.mem (RELOC s.entry + BitVec.ofNat 32 (off + k)).toNat) = _
  rw [hsum]
  exact hloaded.code _ hk

/-- Before paging is on. -/
theorem located_off {s : Symbols} {m : Machine} {off : Nat} (hlinked : Linked s)
    (hloaded : Loaded s m.mem) (hpaging : m.cr0 &&& CR0_PG = 0)
    (heip : m.eip = RELOC s.entry + BitVec.ofNat 32 off) : Located s m off := by
  refine located_of_access hlinked hloaded fun k _ => ?_
  rw [Machine.access, if_pos hpaging, heip, BitVec.add_assoc, ← BitVec.ofNat_add]

/-- The processor sees the first map, with read-only pages protected. -/
def Maps (m : Machine) : Prop := ∀ la write, m.access la write = earlyMap true la write

/-- Once paging is on, still below. -/
theorem located_low {s : Symbols} {m : Machine} {off : Nat} (hlinked : Linked s)
    (hloaded : Loaded s m.mem) (hmaps : Maps m)
    (heip : m.eip = RELOC s.entry + BitVec.ofNat 32 off) : Located s m off := by
  have hbase : KERNBASE = 4026531840 := rfl
  have hlink : LINK = 4027580416 := rfl
  have hsize : PTSIZE = 4194304 := rfl
  have hlow := hlinked.entry_low
  have hhigh := hlinked.entry_high
  refine located_of_access hlinked hloaded fun k hk => ?_
  have hplace := RELOC_toNat (show KERNBASE ≤ s.entry.toNat by omega)
  have hinside : (RELOC s.entry + BitVec.ofNat 32 (off + k)).toNat < PTSIZE := by
    rw [BitVec.toNat_add, BitVec.toNat_ofNat]
    simp only [Nat.reducePow]
    omega
  rw [hmaps, heip, BitVec.add_assoc, ← BitVec.ofNat_add, earlyMap, if_pos hinside, if_neg]
  exact fun hwrite => Bool.false_ne_true hwrite.1

/-- Where the kernel is linked. -/
theorem located_high {s : Symbols} {m : Machine} {off : Nat} (hlinked : Linked s)
    (hloaded : Loaded s m.mem) (hmaps : Maps m)
    (heip : m.eip = s.entry + BitVec.ofNat 32 off) : Located s m off := by
  have hbase : KERNBASE = 4026531840 := rfl
  have hlink : LINK = 4027580416 := rfl
  have hsize : PTSIZE = 4194304 := rfl
  have hlow := hlinked.entry_low
  have hhigh := hlinked.entry_high
  refine located_of_access hlinked hloaded fun k hk => ?_
  have hinside : (s.entry + BitVec.ofNat 32 (off + k)).toNat = s.entry.toNat + (off + k) := by
    rw [BitVec.toNat_add, BitVec.toNat_ofNat]
    simp only [Nat.reducePow]
    omega
  rw [hmaps, heip, BitVec.add_assoc, ← BitVec.ofNat_add, earlyMap, if_neg (by omega),
    if_pos (by omega)]
  congr 1
  rw [RELOC, BitVec.sub_eq_add_neg, BitVec.sub_eq_add_neg, BitVec.add_assoc, BitVec.add_assoc,
    BitVec.add_comm (BitVec.ofNat 32 (off + k))]

/-! ## The run -/

/-- The control bits that `entry.S` sets. -/
def turnedOn (cr0 : Word) : Word := cr0 ||| (CR0_PE ||| CR0_PG ||| CR0_WP)

theorem maps_turnedOn {s : Symbols} {m : Machine} {cr0 : Word} (hloaded : Loaded s m.mem)
    (hcr0 : m.cr0 = turnedOn cr0) (hcr3 : m.cr3 = RELOC s.entry_pgdir) : Maps m := by
  have hpaging : m.cr0 &&& CR0_PG ≠ 0 := by
    rw [hcr0]
    exact or_and_ne_zero cr0 (by decide)
  have hprotect : m.cr0 &&& CR0_WP ≠ 0 := by
    rw [hcr0]
    exact or_and_ne_zero cr0 (by decide)
  intro la write
  rw [Machine.access, if_neg hpaging, decide_eq_true hprotect, hcr3,
    translate_early hloaded.tables]

/-- Memory after the warm-boot mark. -/
def warm (mem : Memory) : Memory := overlay mem 0x472 2 fun i => (halfBytes 0x1234).getD i 0

theorem warm_spared (s : Symbols) (mem : Memory) : Spared s mem (warm mem) := by
  intro a hlow _
  exact overlay_outside _ _ (by omega)

/-- A state of the run at load addresses, behind the warm-boot mark. -/
def below (s : Symbols) (m : Machine) (off : Nat) (eax cr0 cr3 : Word) : Machine :=
  { m with
    eip := RELOC s.entry + BitVec.ofNat 32 off
    eax := eax
    cr0 := cr0
    cr3 := cr3
    mem := warm m.mem }

theorem below_step {s : Symbols} {m : Machine} (hlinked : Linked s) (hloaded : Loaded s m.mem)
    {off : Nat} {eax cr0 cr3 : Word} (hpaging : cr0 &&& CR0_PG = 0) {i : Instr} {post : List Byte}
    (hcode : (code s).drop off = encode i ++ post) :
    (below s m off eax cr0 cr3).step =
      (below s m (off + (encode i).length) eax cr0 cr3).exec i :=
  step_located rfl
    (located_off hlinked (hloaded.spared hlinked (warm_spared s m.mem)) hpaging rfl) hcode

/-- Until paging is on the code runs where it was loaded. -/
theorem run_low {s : Symbols} {m : Machine} (hlinked : Linked s) (hloaded : Loaded s m.mem)
    (hpaging : m.cr0 &&& CR0_PG = 0) (heip : m.eip = RELOC s.entry) (n : Nat) :
    m.run (n + 6) =
      (below s m 28 (turnedOn m.cr0) (turnedOn m.cr0) (RELOC s.entry_pgdir)).run n := by
  have hstart : m.eip = RELOC s.entry + BitVec.ofNat 32 0 := by rw [heip, BitVec.add_zero]
  have hmark : ({ m with eip := RELOC s.entry + BitVec.ofNat 32 9 } : Machine).storeBytes 0x472
      (halfBytes 0x1234) = some (warm m.mem) := by
    refine @storeBytes_eq _ 0x472 0x472 (halfBytes 0x1234) (fun i _ => ?_) (by decide)
    rw [Machine.access, if_pos hpaging]
  have h₁ : m.step = some (below s m 9 m.eax m.cr0 m.cr3) := by
    rw [step_located hstart (located_off hlinked hloaded hpaging hstart)
      (show (code s).drop 0 = encode (.movw 0x1234 0x472) ++ _ from rfl)]
    show (({ m with eip := RELOC s.entry + BitVec.ofNat 32 9 } : Machine).exec
      (.movw 0x1234 0x472)) = _
    rw [Machine.exec, hmark]
    rfl
  have h₂ : (below s m 9 m.eax m.cr0 m.cr3).step =
      some (below s m 14 (RELOC s.entry_pgdir) m.cr0 m.cr3) :=
    below_step (i := .movEax (RELOC s.entry_pgdir)) hlinked hloaded hpaging rfl
  have h₃ : (below s m 14 (RELOC s.entry_pgdir) m.cr0 m.cr3).step =
      some (below s m 17 (RELOC s.entry_pgdir) m.cr0 (RELOC s.entry_pgdir)) :=
    below_step (i := .movEaxCr3) hlinked hloaded hpaging rfl
  have h₄ : (below s m 17 (RELOC s.entry_pgdir) m.cr0 (RELOC s.entry_pgdir)).step =
      some (below s m 20 m.cr0 m.cr0 (RELOC s.entry_pgdir)) :=
    below_step (i := .movCr0Eax) hlinked hloaded hpaging rfl
  have h₅ : (below s m 20 m.cr0 m.cr0 (RELOC s.entry_pgdir)).step =
      some (below s m 25 (turnedOn m.cr0) m.cr0 (RELOC s.entry_pgdir)) :=
    below_step (i := .orEax (CR0_PE ||| CR0_PG ||| CR0_WP)) hlinked hloaded hpaging rfl
  have h₆ : (below s m 25 (turnedOn m.cr0) m.cr0 (RELOC s.entry_pgdir)).step =
      some (below s m 28 (turnedOn m.cr0) (turnedOn m.cr0) (RELOC s.entry_pgdir)) :=
    below_step (i := .movEaxCr0) hlinked hloaded hpaging rfl
  rw [run_succ h₁, run_succ h₂, run_succ h₃, run_succ h₄, run_succ h₅, run_succ h₆]

/-- A state of the run at link addresses. -/
def above (s : Symbols) (m : Machine) (off : Nat) (ebp esp : Word) : Machine :=
  { m with
    eip := s.entry + BitVec.ofNat 32 off
    eax := relocated s
    ebp := ebp
    esp := esp
    cr0 := turnedOn m.cr0
    cr3 := RELOC s.entry_pgdir
    mem := warm m.mem }

/-- The state in which `i386_init` starts, with the address behind the call on the stack. -/
def started (s : Symbols) (m : Machine) : Machine :=
  { above s m 50 0 (s.bootstacktop - 4) with
    eip := s.i386_init
    mem := storeWord (warm m.mem) (RELOC (s.bootstacktop - 4)).toNat (spin s) }

theorem started_mem (s : Symbols) (m : Machine) :
    (started s m).mem = storeWord (warm m.mem) (RELOC (s.bootstacktop - 4)).toNat (spin s) := rfl

section Above

variable {s : Symbols} {m : Machine} (hlinked : Linked s) (hloaded : Loaded s m.mem)
include hlinked hloaded

theorem above_maps (off : Nat) (ebp esp : Word) : Maps (above s m off ebp esp) :=
  maps_turnedOn (hloaded.spared hlinked (warm_spared s m.mem)) rfl rfl

theorem above_step {off : Nat} {ebp esp : Word} {i : Instr} {post : List Byte}
    (hcode : (code s).drop off = encode i ++ post) :
    (above s m off ebp esp).step = (above s m (off + (encode i).length) ebp esp).exec i :=
  step_located rfl
    (located_high hlinked (hloaded.spared hlinked (warm_spared s m.mem))
      (above_maps hlinked hloaded off ebp esp) rfl) hcode

/-- The stack is mapped. -/
theorem push_return :
    (above s m 50 0 s.bootstacktop).storeBytes (s.bootstacktop - 4) (wordBytes (spin s)) =
      some (started s m).mem := by
  have hbase : KERNBASE = 4026531840 := rfl
  have hlink : LINK = 4027580416 := rfl
  have hsize : PTSIZE = 4194304 := rfl
  have hstack : KSTKSIZE = 32768 := rfl
  have hfour : (4 : Word).toNat = 4 := rfl
  have hlow := hlinked.stack_low
  have hhigh := hlinked.stack_high
  have htop : (s.bootstacktop - 4).toNat = s.bootstacktop.toNat - 4 := by
    rw [BitVec.toNat_sub, hfour]
    simp only [Nat.reducePow, Nat.reduceSub]
    omega
  have hplace := RELOC_toNat (show KERNBASE ≤ (s.bootstacktop - 4).toNat by omega)
  have hlength : (wordBytes (spin s)).length = 4 := rfl
  refine storeBytes_eq (fun i hi => ?_) (by omega)
  have hsum : (s.bootstacktop - 4 + BitVec.ofNat 32 i).toNat = s.bootstacktop.toNat - 4 + i := by
    rw [BitVec.toNat_add, BitVec.toNat_ofNat, htop]
    simp only [Nat.reducePow]
    omega
  rw [above_maps hlinked hloaded, earlyMap, if_neg (by omega), if_pos (by omega), RELOC]
  congr 1
  rw [BitVec.sub_eq_add_neg _ (BitVec.ofNat 32 KERNBASE),
    BitVec.sub_eq_add_neg _ (BitVec.ofNat 32 KERNBASE), BitVec.add_assoc, BitVec.add_assoc,
    BitVec.add_comm (BitVec.ofNat 32 i)]

theorem run_high (n : Nat) :
    (below s m 28 (turnedOn m.cr0) (turnedOn m.cr0) (RELOC s.entry_pgdir)).run (n + 5) =
      (started s m).run n := by
  have hwarm := hloaded.spared hlinked (warm_spared s m.mem)
  have low {off : Nat} {eax : Word} {i : Instr} {post : List Byte}
      (hcode : (code s).drop off = encode i ++ post) :
      (below s m off eax (turnedOn m.cr0) (RELOC s.entry_pgdir)).step =
        (below s m (off + (encode i).length) eax (turnedOn m.cr0) (RELOC s.entry_pgdir)).exec i :=
    step_located rfl (located_low hlinked hwarm (maps_turnedOn hwarm rfl rfl) rfl) hcode
  have h₇ : (below s m 28 (turnedOn m.cr0) (turnedOn m.cr0) (RELOC s.entry_pgdir)).step =
      some (below s m 33 (relocated s) (turnedOn m.cr0) (RELOC s.entry_pgdir)) :=
    low (i := .movEax (relocated s)) rfl
  have h₈ : (below s m 33 (relocated s) (turnedOn m.cr0) (RELOC s.entry_pgdir)).step =
      some (above s m 35 m.ebp m.esp) :=
    low (i := .jmpEax) rfl
  have h₉ : (above s m 35 m.ebp m.esp).step = some (above s m 40 0 m.esp) :=
    above_step hlinked hloaded (i := .movEbp 0) rfl
  have h₁₀ : (above s m 40 0 m.esp).step = some (above s m 45 0 s.bootstacktop) :=
    above_step hlinked hloaded (i := .movEsp s.bootstacktop) rfl
  have h₁₁ : (above s m 45 0 s.bootstacktop).step = some (started s m) := by
    rw [above_step hlinked hloaded (i := .call (s.i386_init - spin s)) rfl]
    show (above s m 50 0 s.bootstacktop).exec (.call (s.i386_init - spin s)) = _
    have hpush := push_return hlinked hloaded
    have htarget : spin s + (s.i386_init - spin s) = s.i386_init := by
      rw [BitVec.add_comm, BitVec.sub_add_cancel]
    rw [Machine.exec]
    show ((above s m 50 0 s.bootstacktop).storeBytes (s.bootstacktop - 4)
      (wordBytes (spin s))).bind _ = _
    rw [hpush, Option.bind_some]
    show some { above s m 50 0 (s.bootstacktop - 4) with
      eip := spin s + (s.i386_init - spin s), mem := (started s m).mem : Machine } = _
    rw [htarget]
    rfl
  rw [run_succ h₇, run_succ h₈, run_succ h₉, run_succ h₁₀, run_succ h₁₁]

end Above

/-! ## The kernel starts -/

/-- What `i386_init` finds when it is entered from `m`. -/
structure Started (s : Symbols) (m m' : Machine) : Prop where
  eip : m'.eip = s.i386_init
  ebp : m'.ebp = 0
  esp : m'.esp = s.bootstacktop - 4
  maps : Maps m'
  returns : readLE m'.mem (RELOC m'.esp).toNat 4 = (spin s).toNat
  marked : load16 m'.mem 0x472 = 0x1234
  kept : ∀ a, a ≠ 0x472 → a ≠ 0x473 →
    a < (RELOC m'.esp).toNat ∨ (RELOC m'.esp).toNat + 4 ≤ a → m'.mem a = m.mem a

theorem started_spared {s : Symbols} (hlinked : Linked s) (m : Machine) :
    (RELOC (s.bootstacktop - 4)).toNat = s.bootstacktop.toNat - 4 - KERNBASE ∧
      Spared s m.mem (started s m).mem := by
  have hbase : KERNBASE = 4026531840 := rfl
  have hlink : LINK = 4027580416 := rfl
  have hsize : PTSIZE = 4194304 := rfl
  have hstack : KSTKSIZE = 32768 := rfl
  have hfour : (4 : Word).toNat = 4 := rfl
  have hlow := hlinked.stack_low
  have hhigh := hlinked.stack_high
  have htop : (s.bootstacktop - 4).toNat = s.bootstacktop.toNat - 4 := by
    rw [BitVec.toNat_sub, hfour]
    simp only [Nat.reducePow, Nat.reduceSub]
    omega
  have hplace := RELOC_toNat (show KERNBASE ≤ (s.bootstacktop - 4).toNat by omega)
  rw [htop] at hplace
  refine ⟨hplace, fun a ha hoff => ?_⟩
  rw [started_mem, storeWord_outside _ _ (by omega), warm_spared s m.mem a ha hoff]

theorem started_spec {s : Symbols} {m : Machine} (hlinked : Linked s) (hloaded : Loaded s m.mem) :
    Started s m (started s m) where
  eip := rfl
  ebp := rfl
  esp := rfl
  maps := maps_turnedOn (hloaded.spared hlinked (started_spared hlinked m).2) rfl rfl
  returns := by
    rw [show (started s m).esp = s.bootstacktop - 4 from rfl, started_mem, readLE_storeWord]
  marked := by
    have hlink : LINK = 4027580416 := rfl
    have hbase : KERNBASE = 4026531840 := rfl
    have hstack : KSTKSIZE = 32768 := rfl
    have hlow := hlinked.stack_low
    have hplace := (started_spared hlinked m).1
    have hmark (i : Nat) (hi : i < 2) :
        (started s m).mem (0x472 + i) = (halfBytes 0x1234).getD i 0 := by
      rw [started_mem, storeWord_outside _ _ (by omega), warm, overlay_apply _ _ _ hi]
    rw [load16, show (started s m).mem 0x472 = _ from hmark 0 (by decide), hmark 1 (by decide)]
    rfl
  kept a h₀ h₁ hoff := by
    have hesp : (started s m).esp = s.bootstacktop - 4 := rfl
    rw [hesp] at hoff
    rw [started_mem, storeWord_outside _ _ hoff, warm, overlay_outside _ _ (by omega)]

/-- Behind the call the code stays where it is. -/
theorem spin_run {s : Symbols} {m : Machine} (hlinked : Linked s) (hloaded : Loaded s m.mem)
    (hmaps : Maps m) (heip : m.eip = spin s) (n : Nat) : m.run n = some m := by
  have hplace : m.eip = s.entry + BitVec.ofNat 32 50 := heip
  have hstep : m.step = some m := by
    rw [step_located (i := .jmp 0xFE) hplace (located_high hlinked hloaded hmaps hplace) rfl]
    show some { m with eip := s.entry + BitVec.ofNat 32 52 + (0xFE : Byte).signExtend 32 } = _
    rw [BitVec.add_assoc, show BitVec.ofNat 32 52 + (0xFE : Byte).signExtend 32 = 50 from rfl]
    exact congrArg some (congrArg (fun e => { m with eip := e : Machine }) hplace.symm)
  induction n with
  | zero => rfl
  | succ n ih => rw [run_succ hstep, ih]

/-- From its load address `entry.S` brings the processor to `i386_init` at its
link address, on the new stack, with a frame pointer that ends backtraces.
Should `i386_init` return, the processor stays at `spin`. -/
theorem entry_starts {s : Symbols} {m : Machine} (hlinked : Linked s) (hloaded : Loaded s m.mem)
    (hpaging : m.cr0 &&& CR0_PG = 0) (heip : m.eip = RELOC s.entry) :
    (∃ m', m.run 11 = some m' ∧ Started s m m') ∧
      ∀ m', Started s m m' → ∀ later : Machine, Loaded s later.mem → Maps later →
        later.eip = BitVec.ofNat 32 (readLE m'.mem (RELOC m'.esp).toNat 4) →
          ∀ n, later.run n = some later := by
  constructor
  · refine ⟨started s m, ?_, started_spec hlinked hloaded⟩
    rw [run_low hlinked hloaded hpaging heip 5]
    exact run_high hlinked hloaded 0
  · intro m' hstarted later hlater hmaps hreturn n
    refine spin_run hlinked hlater hmaps ?_ n
    rw [hreturn, hstarted.returns, BitVec.ofNat_toNat, BitVec.setWidth_eq]

/-! ## A small kernel -/

def smallSymbols : Symbols where
  entry := 0xF010000C
  bootstacktop := 0xF0110000
  entry_pgdir := 0xF0101000
  entry_pgtable := 0xF0102000
  i386_init := 0xF0100100

theorem smallSymbols_linked : Linked smallSymbols := by
  constructor
  all_goals decide

/-- The small kernel at its load address. -/
def smallMemory : Memory :=
  overlay
    (overlay
      (overlay (fun _ => 0) 0x10000C (code smallSymbols).length
        fun j => (code smallSymbols).getD j 0)
      0x101000 PGSIZE (tableBytes (entryPgdir 0xF0102000)))
    0x102000 PGSIZE (tableBytes entryPgtable)

theorem smallMemory_loaded : Loaded smallSymbols smallMemory := by
  have hcode : (code smallSymbols).length = 52 := rfl
  have hsize : PGSIZE = 4096 := rfl
  have hentry : (RELOC smallSymbols.entry).toNat = 0x10000C := rfl
  have hdir : (RELOC smallSymbols.entry_pgdir).toNat = 0x101000 := rfl
  have htable : (RELOC smallSymbols.entry_pgtable).toNat = 0x102000 := rfl
  constructor
  · intro j hj
    rw [hentry, smallMemory, overlay_outside _ _ (by omega), overlay_outside _ _ (by omega),
      overlay_apply _ _ _ hj, List.getD_eq_getElem?_getD, List.getElem?_eq_getElem hj]
    rfl
  · refine EntryTables.of_bytes rfl rfl (fun j hj => ?_) fun j hj => ?_
    · rw [hdir, smallMemory, overlay_outside _ _ (by omega), overlay_apply _ _ _ hj]
      rfl
    · rw [htable, smallMemory, overlay_apply _ _ _ hj]

theorem entry_starts_small :
    ∃ m', (⟨0x10000C, 0, 0, 0x7BFC, CR0_PE, 0, smallMemory⟩ : Machine).run 11 = some m' ∧
      Started smallSymbols ⟨0x10000C, 0, 0, 0x7BFC, CR0_PE, 0, smallMemory⟩ m' :=
  (entry_starts smallSymbols_linked smallMemory_loaded (by decide) (by decide)).1

end JOSKernel.Boot.Entry
