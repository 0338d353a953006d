import JOSKernel.Boot.BootBlock
import JOSKernel.Boot.DiskPorts
import JOSKernel.Boot.KernelSession

/-!
# From power on to the serial line

What the BIOS hands over, the boot sector, the loader at the ports of the disk,
`entry.S` and the kernel's C code, each in the state that the one before leaves.
-/

namespace JOSKernel.Boot.PowerOn

open JOSKernel.General.ByteMemory (Memory readBytes_length getElem_readBytes)
open JOSKernel.General.CallStack
open JOSKernel.General.Interaction
open JOSKernel.General.MachineInt
open JOSKernel.Boot.BootBlock
open JOSKernel.Boot.BootProcessor
open JOSKernel.Boot.Main (Disk ELFHDR SECTSIZE KernelImage Proghdr Outcome image loaded)
open JOSKernel.Boot.DiskPorts (Ide busyDisk)
open JOSKernel.Boot.Handover (KernelFile smallImage smallImage_kernel)
open JOSKernel.Boot.KernelSession
open JOSKernel.Boot.Processor (CR0_PE CR0_PG or_and)
open JOSKernel.Kern.ConsoleOutput (Console)
open JOSKernel.Kern.ConsolePorts (portBytes)
open JOSKernel.Kern.Init
open JOSKernel.Kern.Kdebug
open JOSKernel.Kern.Monitor
open JOSKernel.Kern.MonitorLoop
open JOSKernel.Kern.Printf (idle)
open JOSKernel.Kern.SerialLine
open JOSKernel.Kern.TestBacktrace
open JOSKernel.Lib.Printfmt
open JOSKernel.Lib.Readline

/-- The first sector of a disk. -/
def firstSector (disk : Disk) : List Byte := General.ByteMemory.readBytes (disk 0) 0 SECTSIZE

/-- A disk with the signed boot block in front of the kernel. -/
structure Bootable (s : Entry.Symbols) (bootmain : Word) (rest : List Byte) (disk : Disk) :
    Prop where
  signed : sign (block bootmain ++ rest) = some (firstSector disk)
  kernel : KernelFile s (image disk)

/-! ## The loader leaves itself alone -/

/-- No segment is loaded into the first megabyte. -/
theorem block_above {h : Proghdr} (hplaced : h.Placed) (img : Memory) {a : Nat}
    (ha : a < ELFHDR) : ¬ (h.block img).Covers a := by
  rintro ⟨hlow, hhigh⟩
  simp only [Proghdr.block, SECTSIZE, ELFHDR] at hlow hhigh ha
  by_cases hreads : h.Reads
  · have hpa := (hplaced hreads).1
    omega
  · simp only [Proghdr.Reads, SECTSIZE] at hreads
    omega

/-- Below the scratch page, where the boot sector and its stack are, nothing changes. -/
theorem loaded_below {disk : Disk} (himg : KernelImage (image disk)) (m : Memory) {a : Nat}
    (ha : a < ELFHDR) : loaded disk m a = m a := by
  rw [loaded, General.ByteMemory.writeBlocks_outside]
  · exact General.ByteMemory.overlay_outside _ _ (.inl ha)
  · intro b hb
    obtain ⟨h, hh, rfl⟩ := List.mem_map.mp hb
    exact block_above (himg.placed h hh) (image disk) ha

/-- The boot sector leaves paging off. -/
theorem entered_unpaged {bootmain : Word} {c c' : Cpu} (hunpaged : c.cr0 &&& CR0_PG = 0)
    (h : Entered bootmain c c') : c'.cr0 &&& CR0_PG = 0 := by
  rw [h.cr0, or_and, hunpaged]
  rfl

/-! ## The machine -/

variable {s : Entry.Symbols} {bootmain : Word} {rest : List Byte} {disk : Disk}

theorem smallBuild_provided : Provided Entry.smallSymbols smallBuild 24 9 where
  fits := by decide
  edata := by decide
  bss := by decide
  spin := ⟨by decide, .ret (-1) (unknownInfo 0xF010003E), rfl⟩
  mon := noStabs_knows
  again := noStabs_knows
  first := noStabs_knows
  depth := by decide
  buf_pos := by decide
  buf_end := show 80 + 1024 ≤ 4294967296 by decide

/-- The boot block and the small kernel. -/
def smallDisk : Disk := fun sector i =>
  if sector = 0 then smallSector.getD i 0 else Main.diskOf smallImage sector i

theorem image_smallDisk : image smallDisk = smallImage := by
  refine Eq.trans ?_ (Main.image_diskOf smallImage)
  funext o
  show smallDisk (o / SECTSIZE + 1) (o % SECTSIZE) = _
  rw [smallDisk, if_neg (Nat.succ_ne_zero (o / SECTSIZE))]
  rfl

theorem firstSector_smallDisk : firstSector smallDisk = smallSector := by
  have hlength : smallSector.length = SECTSIZE := (sign_spec smallSector_signed).2.1
  rw [firstSector]
  refine List.ext_getElem (by rw [readBytes_length, hlength]) fun i _ hi => ?_
  rw [getElem_readBytes, Nat.zero_add, smallDisk, if_pos rfl, List.getD_eq_getElem?_getD,
    List.getElem?_eq_getElem hi, Option.getD_some]

theorem smallDisk_bootable : Bootable Entry.smallSymbols 0x7D0A [] smallDisk where
  signed := by
    rw [firstSector_smallDisk]
    exact smallSector_signed
  kernel := by
    rw [image_smallDisk]
    exact smallImage_kernel

theorem smallCpu_started : Bios (firstSector smallDisk) (smallCpu smallMem) := by
  rw [firstSector_smallDisk]
  exact smallCpu_bios fun _ hj => smallMem_loaded hj

end JOSKernel.Boot.PowerOn
