import Mathlib.Algebra.Group.Nat.Defs
import JOSKernel.General.ByteMemory
import JOSKernel.Kern.ConsoleOutput

/-!
# The first page tables (`kern/entrypgdir.c`, `inc/mmu.h`)

A linear address is cut into a directory index, a table index and an offset.
The page directory that `entry.S` loads has one table under two of its entries:
the first four megabytes of physical memory appear at the bottom of the address
space, where they cannot be written, and at `KERNBASE`.
-/

namespace JOSKernel.Boot.Paging

open JOSKernel.General.ByteMemory
open JOSKernel.General.MachineInt
open JOSKernel.Kern.ConsoleOutput (KERNBASE)

/-! ## Linear addresses -/

def PTXSHIFT : Nat := 12
def PDXSHIFT : Nat := 22
def PGSIZE : Nat := 4096
def NPDENTRIES : Nat := 1024
def NPTENTRIES : Nat := 1024
def PTSIZE : Nat := PGSIZE * NPTENTRIES

def PGNUM (la : Word) : Word := la >>> PTXSHIFT
def PDX (la : Word) : Word := la >>> PDXSHIFT &&& 0x3FF
def PTX (la : Word) : Word := la >>> PTXSHIFT &&& 0x3FF
def PGOFF (la : Word) : Word := la &&& 0xFFF
def PGADDR (d t o : Word) : Word := d <<< PDXSHIFT ||| t <<< PTXSHIFT ||| o

theorem and_low {x : Word} {n k : Nat} (hn : n = 2 ^ k - 1) (hk : k < 32) :
    (x &&& BitVec.ofNat 32 n).toNat = x.toNat % 2 ^ k := by
  have hlow : 2 ^ k - 1 < 2 ^ 32 :=
    Nat.lt_of_le_of_lt (Nat.sub_le _ _) (Nat.pow_lt_pow_right (by decide) hk)
  rw [BitVec.toNat_and, hn, BitVec.toNat_ofNat, Nat.mod_eq_of_lt hlow,
    Nat.and_two_pow_sub_one_eq_mod]

theorem PDX_toNat (la : Word) : (PDX la).toNat = la.toNat / 4194304 := by
  have hla := la.isLt
  have hlow := @and_low (la >>> 22) 0x3FF 10 rfl (by decide)
  rw [BitVec.toNat_ushiftRight, Nat.shiftRight_eq_div_pow] at hlow
  simp only [Nat.reducePow] at hlow hla
  exact hlow.trans (Nat.mod_eq_of_lt (by omega))

theorem PTX_toNat (la : Word) : (PTX la).toNat = la.toNat / 4096 % 1024 := by
  have hlow := @and_low (la >>> 12) 0x3FF 10 rfl (by decide)
  rw [BitVec.toNat_ushiftRight, Nat.shiftRight_eq_div_pow] at hlow
  exact hlow

theorem PGOFF_toNat (la : Word) : (PGOFF la).toNat = la.toNat % 4096 :=
  @and_low la 0xFFF 12 rfl (by decide)

theorem PGNUM_toNat (la : Word) : (PGNUM la).toNat = la.toNat / 4096 := by
  rw [PGNUM, PTXSHIFT, BitVec.toNat_ushiftRight, Nat.shiftRight_eq_div_pow]

theorem PGADDR_toNat {d t o : Word} (hd : d.toNat < 1024) (ht : t.toNat < 1024)
    (ho : o.toNat < 2 ^ 12) :
    (PGADDR d t o).toNat = d.toNat * 4194304 + t.toNat * 4096 + o.toNat := by
  have hshift (x : Word) (k : Nat) (hx : x.toNat * 2 ^ k < 2 ^ 32) :
      (x <<< k).toNat = 2 ^ k * x.toNat := by
    rw [BitVec.toNat_shiftLeft, Nat.shiftLeft_eq, Nat.mod_eq_of_lt hx, Nat.mul_comm]
  have hdir : d.toNat * 2 ^ 22 < 2 ^ 32 :=
    Nat.lt_of_lt_of_le (Nat.mul_lt_mul_of_pos_right hd (by decide)) (by decide)
  have htable : t.toNat * 2 ^ 12 < 2 ^ 32 :=
    Nat.lt_of_lt_of_le (Nat.mul_lt_mul_of_pos_right ht (by decide)) (by decide)
  have hlow : 2 ^ 12 * t.toNat + o.toNat < 2 ^ 22 := by
    clear hdir htable
    omega
  rw [PGADDR, PDXSHIFT, PTXSHIFT, BitVec.toNat_or, BitVec.toNat_or, hshift d 22 hdir,
    hshift t 12 htable, Nat.or_assoc, ← Nat.two_pow_add_eq_or_of_lt ho t.toNat,
    ← Nat.two_pow_add_eq_or_of_lt hlow d.toNat]
  simp only [Nat.reducePow]
  omega

/-- Taking an address apart and putting it together are inverse. -/
theorem pgaddr_parts (la : Word) :
    PGADDR (PDX la) (PTX la) (PGOFF la) = la ∧
      ∀ d t o : Word, d.toNat < NPDENTRIES → t.toNat < NPTENTRIES → o.toNat < PGSIZE →
        PDX (PGADDR d t o) = d ∧ PTX (PGADDR d t o) = t ∧ PGOFF (PGADDR d t o) = o ∧
          PGNUM (PGADDR d t o) = d * 1024 + t := by
  have hla := la.isLt
  constructor
  · apply BitVec.eq_of_toNat_eq
    rw [PGADDR_toNat, PDX_toNat, PTX_toNat, PGOFF_toNat]
    · omega
    · rw [PDX_toNat]
      omega
    · rw [PTX_toNat]
      omega
    · rw [PGOFF_toNat]
      omega
  · intro d t o hd ht ho
    have hd' : d.toNat < 1024 := hd
    have ht' : t.toNat < 1024 := ht
    have ho' : o.toNat < 4096 := ho
    refine ⟨BitVec.eq_of_toNat_eq ?_, BitVec.eq_of_toNat_eq ?_, BitVec.eq_of_toNat_eq ?_,
      BitVec.eq_of_toNat_eq ?_⟩
    · rw [PDX_toNat, PGADDR_toNat hd' ht' ho']
      omega
    · rw [PTX_toNat, PGADDR_toNat hd' ht' ho']
      omega
    · rw [PGOFF_toNat, PGADDR_toNat hd' ht' ho']
      omega
    · have hentries : (1024 : Word).toNat = 1024 := rfl
      rw [PGNUM_toNat, PGADDR_toNat hd' ht' ho', BitVec.toNat_add, BitVec.toNat_mul, hentries]
      omega

theorem pgaddr_parts_kernbase :
    PDX (PGADDR 960 256 12) = 960 ∧ PTX (PGADDR 960 256 12) = 256 ∧
      PGOFF (PGADDR 960 256 12) = 12 ∧ PGNUM (PGADDR 960 256 12) = 960 * 1024 + 256 :=
  (pgaddr_parts 0).2 960 256 12 (by decide) (by decide) (by decide)

/-! ## Entries -/

def PTE_P : Word := 0x001
def PTE_W : Word := 0x002

/-- `PTE_ADDR(pte)` -/
def PTE_ADDR (pte : Word) : Word := pte &&& ~~~0xFFF

theorem PTE_ADDR_toNat (pte : Word) : (PTE_ADDR pte).toNat = pte.toNat / 4096 * 4096 := by
  have hpte := pte.isLt
  have hmask : (0xFFF : Word) = (BitVec.allOnes 12).setWidth 32 := rfl
  have hshift : PTE_ADDR pte = (pte >>> 12) <<< 12 := by
    refine BitVec.eq_of_getLsbD_eq fun i hi => ?_
    rw [PTE_ADDR, hmask]
    simp only [BitVec.getLsbD_and, BitVec.getLsbD_not, BitVec.getLsbD_setWidth,
      BitVec.getLsbD_allOnes, BitVec.getLsbD_shiftLeft, BitVec.getLsbD_ushiftRight]
    by_cases hlow : i < 12
    · simp [hi, hlow]
    · have hplace : 12 + (i - 12) = i := by omega
      simp [hi, hlow, hplace]
  rw [hshift, BitVec.toNat_shiftLeft, BitVec.toNat_ushiftRight, Nat.shiftRight_eq_div_pow,
    Nat.shiftLeft_eq]
  simp only [Nat.reducePow] at hpte ⊢
  omega

/-- One flag of an entry. -/
theorem flag_iff (pte : Word) {k : Nat} (hk : k < 32) :
    pte &&& BitVec.twoPow 32 k ≠ 0 ↔ pte.toNat / 2 ^ k % 2 = 1 := by
  have hbit : pte.getLsbD k = decide (pte.toNat / 2 ^ k % 2 = 1) :=
    Nat.testBit_eq_decide_div_mod_eq
  have hpow : BitVec.twoPow 32 k ≠ 0 := by
    intro hzero
    have hself : (BitVec.twoPow 32 k).getLsbD k = true := by
      rw [BitVec.getLsbD_twoPow]
      simp [hk]
    rw [hzero] at hself
    simp at hself
  rw [BitVec.and_twoPow, hbit]
  by_cases hset : pte.toNat / 2 ^ k % 2 = 1
  · rw [decide_eq_true hset, if_pos rfl]
    exact iff_of_true hpow hset
  · rw [decide_eq_false hset, if_neg (by decide)]
    exact iff_of_false (fun h => h rfl) hset

theorem present_iff (pte : Word) : pte &&& PTE_P ≠ 0 ↔ pte.toNat % 2 = 1 := by
  have hflag := @flag_iff pte 0 (by decide)
  rw [Nat.pow_zero, Nat.div_one] at hflag
  exact hflag

theorem writable_iff (pte : Word) : pte &&& PTE_W ≠ 0 ↔ pte.toNat / 2 % 2 = 1 :=
  @flag_iff pte 1 (by decide)

/-! ## The walk -/

/-- The entry `i` of a table in physical memory. -/
def entryAt (mem : Memory) (base i : Word) : Word :=
  BitVec.ofNat 32 (readLE mem (base.toNat + 4 * i.toNat) 4)

/-- Where the processor finds a linear address, as supervisor.  Read-only pages
are protected from it when `CR0_WP` is set.  The accessed and dirty bits that it
sets in the entries on its way are left out. -/
def translate (wp : Bool) (mem : Memory) (cr3 la : Word) (write : Bool) : Option Word :=
  let pde := entryAt mem (PTE_ADDR cr3) (PDX la)
  if pde &&& PTE_P = 0 then none
  else
    let pte := entryAt mem (PTE_ADDR pde) (PTX la)
    if pte &&& PTE_P = 0 then none
    else if write ∧ wp ∧ (pde &&& PTE_W = 0 ∨ pte &&& PTE_W = 0) then none
    else some (PTE_ADDR pte ||| PGOFF la)

/-! ## The tables of `entrypgdir.c` -/

/-- From the address a symbol is linked at to the one it is loaded at. -/
def RELOC (x : Word) : Word := x - BitVec.ofNat 32 KERNBASE

/-- The entries of `entry_pgtable`, which the source lists one by one. -/
def entryPgtable (i : Nat) : Word := BitVec.ofNat 32 (i * 0x1000) ||| PTE_P ||| PTE_W

/-- The entries of `entry_pgdir`, with `entry_pgtable` linked at `pgtable`. -/
def entryPgdir (pgtable : Word) (i : Nat) : Word :=
  if i = 0 then (pgtable - BitVec.ofNat 32 KERNBASE) + PTE_P
  else if i = KERNBASE >>> PDXSHIFT then (pgtable - BitVec.ofNat 32 KERNBASE) + PTE_P + PTE_W
  else 0

/-- The two tables, loaded into physical memory. -/
structure EntryTables (mem : Memory) (pgdir pgtable : Word) : Prop where
  aligned_dir : pgdir.toNat % PGSIZE = 0
  aligned_table : pgtable.toNat % PGSIZE = 0
  dir : ∀ i < NPDENTRIES,
    readLE mem ((RELOC pgdir).toNat + 4 * i) 4 = (entryPgdir pgtable i).toNat
  table : ∀ i < NPTENTRIES, readLE mem ((RELOC pgtable).toNat + 4 * i) 4 = (entryPgtable i).toNat

/-- The first four megabytes as they are, but for reading only, and once more at `KERNBASE`. -/
def earlyMap (wp : Bool) (la : Word) (write : Bool) : Option Word :=
  if la.toNat < PTSIZE then (if write ∧ wp then none else some la)
  else if KERNBASE ≤ la.toNat ∧ la.toNat < KERNBASE + PTSIZE then
    some (la - BitVec.ofNat 32 KERNBASE)
  else none

theorem entryPgtable_toNat {i : Nat} (hi : i < 1024) : (entryPgtable i).toNat = i * 4096 + 3 := by
  have hsmall : i * 0x1000 < 2 ^ 32 :=
    Nat.lt_of_lt_of_le (Nat.mul_lt_mul_of_pos_right hi (by decide)) (by decide)
  have hflags : PTE_P.toNat ||| PTE_W.toNat = 3 := rfl
  have hadd := Nat.two_pow_add_eq_or_of_lt (show 3 < 2 ^ 12 by decide) i
  rw [entryPgtable, BitVec.toNat_or, BitVec.toNat_or, BitVec.toNat_ofNat, Nat.mod_eq_of_lt hsmall,
    Nat.or_assoc, hflags, Nat.mul_comm i, ← hadd]

theorem kernbase_toNat : (BitVec.ofNat 32 KERNBASE).toNat = 4026531840 := rfl

theorem RELOC_aligned {x : Word} (hx : x.toNat % 4096 = 0) :
    (RELOC x).toNat % 4096 = 0 ∧ (RELOC x).toNat ≤ 4294963200 := by
  have hlt := x.isLt
  rw [RELOC, BitVec.toNat_sub, kernbase_toNat]
  simp only [Nat.reducePow, Nat.reduceSub] at hlt ⊢
  omega

/-- An entry that points to an aligned table and has some of the lowest flags. -/
theorem flagged_entry {base : Word} (hbase : base.toNat % 4096 = 0 ∧ base.toNat ≤ 4294963200)
    (flags : Word) (hflags : flags.toNat < 4) :
    (base + flags).toNat = base.toNat + flags.toNat ∧ PTE_ADDR (base + flags) = base := by
  have hsum : (base + flags).toNat = base.toNat + flags.toNat := by
    rw [BitVec.toNat_add]
    simp only [Nat.reducePow]
    omega
  refine ⟨hsum, BitVec.eq_of_toNat_eq ?_⟩
  rw [PTE_ADDR_toNat, hsum]
  omega

section Walk

variable {mem : Memory} {pgdir pgtable : Word} (h : EntryTables mem pgdir pgtable)
include h

/-- The directory entry of an address. -/
theorem pde_at (la : Word) :
    entryAt mem (PTE_ADDR (RELOC pgdir)) (PDX la) = entryPgdir pgtable (la.toNat / 4194304) := by
  have hla := la.isLt
  simp only [Nat.reducePow] at hla
  have hbase : PTE_ADDR (RELOC pgdir) = RELOC pgdir := by
    have haligned := RELOC_aligned h.aligned_dir
    apply BitVec.eq_of_toNat_eq
    rw [PTE_ADDR_toNat]
    omega
  have hindex : la.toNat / 4194304 < NPDENTRIES := by
    show la.toNat / 4194304 < 1024
    omega
  rw [entryAt, hbase, PDX_toNat, h.dir _ hindex, BitVec.ofNat_toNat, BitVec.setWidth_eq]

/-- The table entry of an address, below one of the two directory entries. -/
theorem pte_at {pde : Word} (hpde : PTE_ADDR pde = RELOC pgtable) (la : Word) :
    entryAt mem (PTE_ADDR pde) (PTX la) = entryPgtable (la.toNat / 4096 % 1024) := by
  have hindex : la.toNat / 4096 % 1024 < NPTENTRIES := Nat.mod_lt _ (by decide)
  rw [entryAt, hpde, PTX_toNat, h.table _ hindex, BitVec.ofNat_toNat, BitVec.setWidth_eq]

/-- Through a present directory entry the walk ends in the page of the low megabytes. -/
theorem translate_through (wp : Bool) (la : Word) (write : Bool) {flags : Word}
    (hflags : flags.toNat = 1 ∨ flags.toNat = 3)
    (hpde : entryPgdir pgtable (la.toNat / 4194304) = RELOC pgtable + flags) :
    translate wp mem (RELOC pgdir) la write =
      if write ∧ wp ∧ flags.toNat = 1 then none
      else some (BitVec.ofNat 32 (la.toNat % 4194304)) := by
  have haligned := RELOC_aligned h.aligned_table
  obtain ⟨hvalue, haddr⟩ := flagged_entry haligned flags (by omega)
  have hindex : la.toNat / 4096 % 1024 < 1024 := Nat.mod_lt _ (by decide)
  have hpte := entryPgtable_toNat hindex
  have hpresent : ¬ (RELOC pgtable + flags) &&& PTE_P = 0 := by
    rw [← ne_eq, present_iff, hvalue]
    omega
  have hpresent' : ¬ entryPgtable (la.toNat / 4096 % 1024) &&& PTE_P = 0 := by
    rw [← ne_eq, present_iff, hpte]
    omega
  have hwritable' : ¬ entryPgtable (la.toNat / 4096 % 1024) &&& PTE_W = 0 := by
    rw [← ne_eq, writable_iff, hpte]
    omega
  have hwritable : (RELOC pgtable + flags) &&& PTE_W = 0 ↔ flags.toNat = 1 := by
    rw [← not_iff_not, ← ne_eq, writable_iff, hvalue]
    omega
  have hplace : PTE_ADDR (entryPgtable (la.toNat / 4096 % 1024)) ||| PGOFF la =
      BitVec.ofNat 32 (la.toNat % 4194304) := by
    have hframe : (PTE_ADDR (entryPgtable (la.toNat / 4096 % 1024))).toNat =
        2 ^ 12 * (la.toNat / 4096 % 1024) := by
      rw [PTE_ADDR_toNat, hpte]
      omega
    have hoffset : la.toNat % 4096 < 2 ^ 12 := Nat.mod_lt _ (by decide)
    apply BitVec.eq_of_toNat_eq
    rw [BitVec.toNat_or, hframe, PGOFF_toNat, ← Nat.two_pow_add_eq_or_of_lt hoffset,
      BitVec.toNat_ofNat]
    clear hoffset
    simp only [Nat.reducePow]
    omega
  rw [translate, pde_at h, hpde]
  simp only [pte_at h haddr, if_neg hpresent, if_neg hpresent', hwritable, hwritable', or_false,
    hplace]

/-- The tables map the whole address space as the comment at their definition
says, and the low copy is read-only. -/
theorem translate_early (wp : Bool) (la : Word) (write : Bool) :
    translate wp mem (RELOC pgdir) la write = earlyMap wp la write := by
  have hla := la.isLt
  simp only [Nat.reducePow] at hla
  have hsize : PTSIZE = 4194304 := rfl
  have hbase : KERNBASE = 4026531840 := rfl
  have hslot : KERNBASE >>> PDXSHIFT = 960 := rfl
  rw [earlyMap]
  rcases Nat.lt_or_ge la.toNat PTSIZE with hlow | hhigh
  · have hindex : la.toNat / 4194304 = 0 := by omega
    have hpde : entryPgdir pgtable (la.toNat / 4194304) = RELOC pgtable + PTE_P := by
      rw [hindex]
      rfl
    have hsame : BitVec.ofNat 32 (la.toNat % 4194304) = la := by
      rw [Nat.mod_eq_of_lt (by omega), BitVec.ofNat_toNat, BitVec.setWidth_eq]
    rw [translate_through h wp la write (.inl rfl) hpde, if_pos hlow, hsame]
    have hflag : PTE_P.toNat = 1 := rfl
    simp only [hflag, and_true]
  · rw [if_neg (Nat.not_lt.mpr hhigh)]
    by_cases hkernel : KERNBASE ≤ la.toNat ∧ la.toNat < KERNBASE + PTSIZE
    · have hindex : la.toNat / 4194304 = 960 := by omega
      have hpde : entryPgdir pgtable (la.toNat / 4194304) = RELOC pgtable + (PTE_P + PTE_W) := by
        rw [hindex, ← BitVec.add_assoc]
        rfl
      have hsame : BitVec.ofNat 32 (la.toNat % 4194304) = la - BitVec.ofNat 32 KERNBASE := by
        apply BitVec.eq_of_toNat_eq
        rw [BitVec.toNat_ofNat, BitVec.toNat_sub, kernbase_toNat]
        simp only [Nat.reducePow, Nat.reduceSub]
        omega
      have hflag : ¬ (PTE_P + PTE_W).toNat = 1 := by decide
      rw [translate_through h wp la write (.inr rfl) hpde, if_pos hkernel, hsame, if_neg]
      exact fun hfault => hflag hfault.2.2
    · have hother : la.toNat / 4194304 ≠ 0 ∧ la.toNat / 4194304 ≠ 960 := by omega
      have hpde : entryPgdir pgtable (la.toNat / 4194304) = 0 := by
        rw [entryPgdir, if_neg hother.1, if_neg (by rw [hslot]; exact hother.2)]
      rw [translate, pde_at h, hpde, if_neg hkernel]
      rfl

/-- Every byte of the first four megabytes of physical memory, and no other, can
be reached, at its own address to read and above `KERNBASE` to read and write. -/
theorem translate_entry (wp : Bool) (la pa : Word) (write : Bool) :
    translate wp mem (RELOC pgdir) la write = some pa ↔
      pa.toNat < PTSIZE ∧
        (la = pa ∧ ¬(write ∧ wp) ∨ la = pa + BitVec.ofNat 32 KERNBASE) := by
  have hsize : PTSIZE = 4194304 := rfl
  have hbase : KERNBASE = 4026531840 := rfl
  have hhigh (hpa : pa.toNat < PTSIZE) :
      (pa + BitVec.ofNat 32 KERNBASE).toNat = KERNBASE + pa.toNat := by
    rw [BitVec.toNat_add, kernbase_toNat]
    simp only [Nat.reducePow]
    omega
  rw [translate_early h, earlyMap]
  constructor
  · intro hmap
    split at hmap
    · rename_i hlow
      split at hmap
      · cases hmap
      · rename_i hallowed
        rw [Option.some.injEq] at hmap
        subst hmap
        exact ⟨hlow, .inl ⟨rfl, hallowed⟩⟩
    · split at hmap
      · rename_i hkernel
        rw [Option.some.injEq] at hmap
        subst hmap
        refine ⟨?_, .inr (BitVec.sub_add_cancel la _).symm⟩
        rw [BitVec.toNat_sub, kernbase_toNat]
        simp only [Nat.reducePow, Nat.reduceSub]
        omega
      · cases hmap
  · rintro ⟨hpa, ⟨rfl, hallowed⟩ | rfl⟩
    · rw [if_pos hpa, if_neg hallowed]
    · have hsum := hhigh hpa
      rw [if_neg (by omega), if_pos (by omega), BitVec.add_sub_cancel]

end Walk

/-! ## Tables as bytes -/

/-- The bytes of a table of words. -/
def tableBytes (words : Nat → Word) (a : Nat) : Byte :=
  BitVec.ofNat 8 ((words (a / 4)).toNat / 256 ^ (a % 4))

theorem readLE_tableBytes {mem : Memory} {words : Nat → Word} {base count : Nat}
    (h : ∀ j < 4 * count, mem (base + j) = tableBytes words j) {i : Nat} (hi : i < count) :
    readLE mem (base + 4 * i) 4 = (words i).toNat := by
  have hword := (words i).isLt
  have hbyte (k : Nat) (hk : k < 4) :
      (mem (base + 4 * i + k)).toNat = (words i).toNat / 256 ^ k % 256 := by
    have hindex : (4 * i + k) / 4 = i := by omega
    have hplace : (4 * i + k) % 4 = k := by omega
    rw [Nat.add_assoc, h (4 * i + k) (by omega), tableBytes, hindex, hplace, BitVec.toNat_ofNat]
  have h₀ := hbyte 0 (by decide)
  have h₁ := hbyte 1 (by decide)
  have h₂ := hbyte 2 (by decide)
  have h₃ := hbyte 3 (by decide)
  simp only [Nat.add_zero, Nat.pow_zero, Nat.div_one, Nat.pow_one] at h₀ h₁ h₂ h₃
  simp only [readLE, Nat.add_assoc] at h₀ h₁ h₂ h₃ ⊢
  simp only [Nat.reducePow, Nat.reduceAdd] at h₀ h₁ h₂ h₃ hword ⊢
  omega

/-- Tables whose bytes lie in memory are there. -/
theorem EntryTables.of_bytes {mem : Memory} {pgdir pgtable : Word}
    (halignedDir : pgdir.toNat % PGSIZE = 0) (halignedTable : pgtable.toNat % PGSIZE = 0)
    (hdir : ∀ j < PGSIZE, mem ((RELOC pgdir).toNat + j) = tableBytes (entryPgdir pgtable) j)
    (htable : ∀ j < PGSIZE, mem ((RELOC pgtable).toNat + j) = tableBytes entryPgtable j) :
    EntryTables mem pgdir pgtable where
  aligned_dir := halignedDir
  aligned_table := halignedTable
  dir _ hi := readLE_tableBytes hdir hi
  table _ hi := readLE_tableBytes htable hi

/-- Memory that holds the tables at its second and third page. -/
def twoTables : Memory :=
  overlay (overlay (fun _ => 0) 0x1000 PGSIZE (tableBytes (entryPgdir 0xF0002000))) 0x2000 PGSIZE
    (tableBytes entryPgtable)

theorem twoTables_entry : EntryTables twoTables 0xF0001000 0xF0002000 := by
  have hdir : (RELOC 0xF0001000).toNat = 0x1000 := rfl
  have htable : (RELOC 0xF0002000).toNat = 0x2000 := rfl
  have hsize : PGSIZE = 4096 := rfl
  refine EntryTables.of_bytes rfl rfl ?_ ?_
  · intro j hj
    rw [hdir, twoTables, overlay_outside _ _ (by omega), overlay_apply _ _ _ hj]
  · intro j hj
    rw [htable, twoTables, overlay_apply _ _ _ hj]

/-- The kernel finds its text above `KERNBASE`. -/
theorem translate_entry_text :
    translate true twoTables (RELOC 0xF0001000) 0xF010000C false = some 0x10000C :=
  (translate_entry twoTables_entry true 0xF010000C 0x10000C false).mpr
    ⟨by decide, .inr rfl⟩

end JOSKernel.Boot.Paging
