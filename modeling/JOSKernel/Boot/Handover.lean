import JOSKernel.Boot.Entry

/-!
# From the boot loader to `i386_init`

The entry point that `bootmain` calls is `_start`, and by then the code of
`entry.S` and the first page tables have to be in memory.  They are when the
image carries them in its segments and the sectors that are read twice agree.
-/

namespace JOSKernel.Boot.Handover

open JOSKernel.General.ByteMemory
open JOSKernel.General.MachineInt
open JOSKernel.Kern.ConsoleOutput (KERNBASE)
open JOSKernel.Boot.Main
open JOSKernel.Boot.Paging
open JOSKernel.Boot.Processor
open JOSKernel.Boot.Entry

/-- A segment of the image brings `count` bytes to physical address `pa`. -/
def Carries (img : Memory) (pa count : Nat) (bytes : Nat → Byte) : Prop :=
  ∃ h ∈ headers img, 0 < h.p_memsz ∧ h.p_pa ≤ pa ∧ pa + count ≤ h.p_pa + h.p_filesz ∧
    ∀ j < count, img (h.p_offset + (pa - h.p_pa + j)) = bytes j

/-- The image of a kernel with these symbols. -/
structure KernelFile (s : Symbols) (img : Memory) : Prop where
  image : KernelImage img
  agree : SectorsAgree img (headers img)
  e_entry : readLE img 24 4 = (RELOC s.entry).toNat
  code : Carries img (RELOC s.entry).toNat (code s).length fun j => (code s).getD j 0
  dir : Carries img (RELOC s.entry_pgdir).toNat PGSIZE (tableBytes (entryPgdir s.entry_pgtable))
  table : Carries img (RELOC s.entry_pgtable).toNat PGSIZE (tableBytes entryPgtable)

/-- The loads stay off the scratch page. -/
theorem loaded_page {disk : Disk} (himg : KernelImage (image disk)) (m : Memory) :
    PageLoaded (image disk) (Main.loaded disk m) := by
  intro i hi
  rw [Main.loaded, writeBlocks_outside, withPage_loaded disk m i hi]
  intro b hb
  obtain ⟨h, hh, rfl⟩ := List.mem_map.mp hb
  exact h.block_off_page (himg.placed h hh) (image disk) hi

theorem Carries.loaded {disk : Disk} {m : Memory} (himg : KernelImage (image disk))
    (hloads : LoadsSegments disk m) {pa count : Nat} {bytes : Nat → Byte}
    (h : Carries (image disk) pa count bytes) {j : Nat} (hj : j < count) :
    Main.loaded disk m (pa + j) = bytes j := by
  obtain ⟨seg, hseg, hmem, hlow, hhigh, hbytes⟩ := h
  have hplace : pa + j = seg.p_pa + (pa - seg.p_pa + j) := by omega
  rw [hplace, hloads.loaded_eq himg hseg hmem (by omega), hbytes j hj]

/-- The loader leaves what `entry.S` needs in memory. -/
theorem loaded_kernel {s : Symbols} (hlinked : Linked s) {disk : Disk} (m : Memory)
    (hfile : KernelFile s (image disk)) : Loaded s (Main.loaded disk m) := by
  have hloads := (bootmain_loads_iff disk m hfile.image).mpr hfile.agree
  constructor
  · intro j hj
    rw [hfile.code.loaded hfile.image hloads hj, List.getD_eq_getElem?_getD,
      List.getElem?_eq_getElem hj]
    rfl
  · exact EntryTables.of_bytes hlinked.dir_aligned hlinked.table_aligned
      (fun j hj => hfile.dir.loaded hfile.image hloads hj)
      fun j hj => hfile.table.loaded hfile.image hloads hj

/-- The boot loader reads a kernel from disk and calls its entry point, and from
there the processor gets to `i386_init`. -/
theorem boot_starts_kernel {s : Symbols} (hlinked : Linked s) {disk : Disk}
    (hfile : KernelFile s (image disk)) (mem : Memory) :
    ∃ e_entry mem', bootmain disk mem = some (.enter e_entry, mem') ∧
      ∀ m : Machine, m.eip = BitVec.ofNat 32 e_entry → m.mem = mem' → m.cr0 &&& CR0_PG = 0 →
        ∃ m', m.run 11 = some m' ∧ Started s m m' := by
  refine ⟨_, _, bootmain_eq disk mem hfile.image, ?_⟩
  intro m heip hmem hpaging
  have hloaded : Loaded s m.mem := by
    rw [hmem]
    exact loaded_kernel hlinked mem hfile
  have hentry : m.eip = RELOC s.entry := by
    rw [heip, (loaded_page hfile.image mem).readLE_eq (by decide), hfile.e_entry,
      BitVec.ofNat_toNat, BitVec.setWidth_eq]
  exact ⟨started s m, (run_low hlinked hloaded hpaging hentry 5).trans
    (run_high hlinked hloaded 0), started_spec hlinked hloaded⟩

/-! ## A small kernel -/

/-- An ELF header and the header of a segment of four pages. -/
def smallHeader : Memory := fun o =>
  match o with
  | 0 => 0x7F
  | 1 => 0x45
  | 2 => 0x4C
  | 3 => 0x46
  | 24 => 0x0C
  | 26 => 0x10
  | 28 => 52
  | 44 => 1
  | 57 => 0x10
  | 66 => 0x10
  | 69 => 0x40
  | 73 => 0x40
  | _ => 0

def smallSegment : Proghdr where
  p_offset := 0x1000
  p_pa := 0x100000
  p_filesz := 0x4000
  p_memsz := 0x4000

def smallImage : Memory :=
  overlay
    (overlay
      (overlay smallHeader 0x100C (code smallSymbols).length fun j => (code smallSymbols).getD j 0)
      0x2000 PGSIZE (tableBytes (entryPgdir 0xF0102000)))
    0x3000 PGSIZE (tableBytes entryPgtable)

theorem smallImage_header {addr width : Nat} (h : addr + width ≤ 0x1000) :
    readLE smallImage addr width = readLE smallHeader addr width := by
  refine readLE_congr fun i hi => ?_
  rw [smallImage, overlay_outside _ _ (by omega), overlay_outside _ _ (by omega),
    overlay_outside _ _ (by omega)]

theorem headers_smallImage : headers smallImage = [smallSegment] := by
  rw [headers, smallImage_header (by decide), smallImage_header (by decide),
    show readLE smallHeader 28 4 = 52 from rfl, show readLE smallHeader 44 2 = 1 from rfl]
  simp only [headersFrom, readProghdr]
  rw [smallImage_header (by decide), smallImage_header (by decide), smallImage_header (by decide),
    smallImage_header (by decide)]
  rfl

theorem smallImage_kernel : KernelFile smallSymbols smallImage := by
  have hcode : (code smallSymbols).length = 52 := rfl
  have hsize : PGSIZE = 4096 := rfl
  have hmem : smallSegment ∈ headers smallImage := by
    rw [headers_smallImage]
    exact List.mem_singleton_self smallSegment
  have himage : KernelImage smallImage := by
    constructor
    · rw [smallImage_header (by decide)]
      rfl
    · rw [smallImage_header (by decide), smallImage_header (by decide)]
      decide
    · rw [headers_smallImage]
      simp [Proghdr.Placed, smallSegment, SECTSIZE]
    · rw [headers_smallImage]
      simp [smallSegment, SECTSIZE]
    · rw [headers_smallImage]
      exact List.pairwise_singleton _ _
  refine ⟨himage, sectorsAgree_of_displacement himage ?_, ?_, ?_, ?_, ?_⟩
  · rw [headers_smallImage]
    simp [smallSegment]
  · rw [smallImage_header (by decide)]
    rfl
  · refine ⟨smallSegment, hmem, by decide, by decide, by decide, fun j hj => ?_⟩
    have hplace : smallSegment.p_offset + ((RELOC smallSymbols.entry).toNat - smallSegment.p_pa + j) =
        0x100C + j := by
      show 0x1000 + (0xC + j) = _
      omega
    rw [hplace, smallImage, overlay_outside _ _ (by omega), overlay_outside _ _ (by omega),
      overlay_apply _ _ _ hj]
  · refine ⟨smallSegment, hmem, by decide, by decide, by decide, fun j hj => ?_⟩
    have hplace : smallSegment.p_offset +
        ((RELOC smallSymbols.entry_pgdir).toNat - smallSegment.p_pa + j) = 0x2000 + j := by
      show 0x1000 + (0x1000 + j) = _
      omega
    rw [hplace, smallImage, overlay_outside _ _ (by omega), overlay_apply _ _ _ hj]
    rfl
  · refine ⟨smallSegment, hmem, by decide, by decide, by decide, fun j hj => ?_⟩
    have hplace : smallSegment.p_offset +
        ((RELOC smallSymbols.entry_pgtable).toNat - smallSegment.p_pa + j) = 0x3000 + j := by
      show 0x1000 + (0x2000 + j) = _
      omega
    rw [hplace, smallImage, overlay_apply _ _ _ hj]

end JOSKernel.Boot.Handover
