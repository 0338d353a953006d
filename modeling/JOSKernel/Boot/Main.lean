import JOSKernel.General.ByteMemory

/-!
# The boot loader (`boot/main.c`)

`bootmain` reads the first page of the kernel image, then loads each program
segment with `readseg`, which reads whole sectors and so writes outside the
segment on both sides.  The kernel image starts at the second sector of the
disk, and the disk returns the sector it is asked for.
-/

namespace JOSKernel.Boot.Main

open JOSKernel.General.MachineInt
open JOSKernel.General.ByteMemory

/-- The bytes of each sector. -/
abbrev Disk := Nat → Nat → Byte

def SECTSIZE : Nat := 512

/-- The scratch space for the ELF header. -/
def ELFHDR : Nat := 0x10000

def ELF_MAGIC : Nat := 0x464C457F

/-- The sector that the address registers 0x1F3 to 0x1F6 select; the low half
of the last holds the top four bits. -/
def sectorAddress (r3 r4 r5 r6 : Byte) : Nat :=
  r3.toNat + 256 * r4.toNat + 65536 * r5.toNat + 16777216 * (r6 &&& 0x0F).toNat

/-- Read one sector to `dst`.  Waiting for the disk takes time only. -/
def readsect (disk : Disk) (dst offset : Nat) (m : Memory) : Memory :=
  let r3 := BitVec.ofNat 8 offset
  let r4 := BitVec.ofNat 8 (offset / 256)
  let r5 := BitVec.ofNat 8 (offset / 65536)
  let r6 := BitVec.ofNat 8 (offset / 16777216) ||| 0xE0
  overlay m dst SECTSIZE (disk (sectorAddress r3 r4 r5 r6))

/-- The loop of `readseg`.  It cannot go around more often than there are
sectors in the address space without coming back to where it was. -/
def readsegLoop (disk : Disk) (endPa : Nat) : Nat → Nat → Nat → Memory → Option Memory
  | 0, _, _, _ => none
  | fuel + 1, pa, offset, m =>
      if pa < endPa then
        readsegLoop disk endPa fuel ((pa + SECTSIZE) % 4294967296) ((offset + 1) % 4294967296)
          (readsect disk pa offset m)
      else some m

/-- Read `count` bytes at `offset` from kernel into physical address `pa`.
Might copy more than asked. -/
def readseg (disk : Disk) (pa count offset : Nat) (m : Memory) : Option Memory :=
  let endPa := (pa + count) % 4294967296
  readsegLoop disk endPa 8388609 (pa / SECTSIZE * SECTSIZE) (offset / SECTSIZE + 1) m

/-- The members of `struct Proghdr` that the loader reads. -/
structure Proghdr where
  p_offset : Nat
  p_pa : Nat
  p_filesz : Nat
  p_memsz : Nat

def readProghdr (m : Memory) (addr : Nat) : Proghdr where
  p_offset := readLE m (addr + 4) 4
  p_pa := readLE m (addr + 12) 4
  p_filesz := readLE m (addr + 16) 4
  p_memsz := readLE m (addr + 20) 4

/-- The loop over the program headers, with at most `count` of them left. -/
def loadLoop (disk : Disk) (eph : Nat) : Nat → Nat → Memory → Option Memory
  | 0, ph, m => if ph < eph then none else some m
  | count + 1, ph, m =>
      if ph < eph then do
        let h := readProghdr m ph
        let m ← readseg disk h.p_pa h.p_memsz h.p_offset m
        loadLoop disk eph count ((ph + 32) % 4294967296) m
      else some m

/-- Where control goes: to the loop at `bad`, or to the entry point. -/
inductive Outcome where
  | bad
  | enter (entry : Nat)

def bootmain (disk : Disk) (m : Memory) : Option (Outcome × Memory) := do
  let m ← readseg disk ELFHDR (SECTSIZE * 8) 0 m
  if readLE m ELFHDR 4 ≠ ELF_MAGIC then some (.bad, m)
  else
    let phnum := readLE m (ELFHDR + 44) 2
    let ph := (ELFHDR + readLE m (ELFHDR + 28) 4) % 4294967296
    let m ← loadLoop disk ((ph + 32 * phnum) % 4294967296) phnum ph m
    some (.enter (readLE m (ELFHDR + 24) 4), m)

/-! ## Reading sectors -/

/-- The kernel image on a disk. -/
def image (disk : Disk) : Memory := fun o => disk (o / SECTSIZE + 1) (o % SECTSIZE)

/-- The registers hold any sector number of 28 bits. -/
theorem sectorAddress_eq {offset : Nat} (h : offset < 268435456) :
    sectorAddress (BitVec.ofNat 8 offset) (BitVec.ofNat 8 (offset / 256))
      (BitVec.ofNat 8 (offset / 65536)) (BitVec.ofNat 8 (offset / 16777216) ||| 0xE0) = offset := by
  have hhigh : ∀ q < 16, ((BitVec.ofNat 8 q ||| 0xE0) &&& 0x0F).toNat = q := by decide
  have hdigits : (BitVec.ofNat 8 offset).toNat = offset % 256 ∧
      (BitVec.ofNat 8 (offset / 256)).toNat = offset / 256 % 256 ∧
      (BitVec.ofNat 8 (offset / 65536)).toNat = offset / 65536 % 256 :=
    ⟨BitVec.toNat_ofNat _ _, BitVec.toNat_ofNat _ _, BitVec.toNat_ofNat _ _⟩
  rw [sectorAddress, hdigits.1, hdigits.2.1, hdigits.2.2, hhigh _ (by omega)]
  omega

theorem readsect_eq (disk : Disk) (dst : Nat) {sector : Nat} (h : sector + 1 < 268435456)
    (m : Memory) :
    readsect disk dst (sector + 1) m =
      overlay m dst SECTSIZE fun i => image disk (sector * SECTSIZE + i) := by
  rw [readsect, sectorAddress_eq h]
  refine overlay_congr m dst SECTSIZE fun i hi => ?_
  have hsize : SECTSIZE = 512 := rfl
  rw [image, hsize, show (sector * 512 + i) / 512 = sector by omega,
    show (sector * 512 + i) % 512 = i by omega]

/-- A loop that ends reads consecutive sectors. -/
theorem readsegLoop_eq (disk : Disk) {endPa n fuel pa sector : Nat} (m : Memory)
    (hend : endPa ≤ 4294967296 - SECTSIZE) (hn : n = (endPa - pa + (SECTSIZE - 1)) / SECTSIZE)
    (hfuel : n < fuel) (hsector : sector + n < 268435456) :
    readsegLoop disk endPa fuel pa (sector + 1) m =
      some (overlay m pa (n * SECTSIZE) fun i => image disk (sector * SECTSIZE + i)) := by
  have hsize : SECTSIZE = 512 := rfl
  rw [hsize] at hend hn ⊢
  induction n generalizing fuel pa sector m with
  | zero =>
      obtain ⟨fuel, rfl⟩ := Nat.exists_eq_add_of_le' hfuel
      rw [readsegLoop, if_neg (by omega), Nat.zero_mul, overlay_zero]
  | succ n ih =>
      obtain ⟨fuel, rfl⟩ := Nat.exists_eq_add_of_le' (Nat.le_trans (Nat.succ_pos _) hfuel)
      have hnext : (pa + 512) % 4294967296 = pa + 512 := Nat.mod_eq_of_lt (by omega)
      have hoffset : (sector + 1 + 1) % 4294967296 = sector + 1 + 1 := Nat.mod_eq_of_lt (by omega)
      have hshift : (fun i => image disk ((sector + 1) * 512 + i)) =
          fun i => image disk (sector * 512 + (512 + i)) := by
        funext i
        rw [Nat.succ_mul, Nat.add_assoc]
      have hjoin := overlay_append m pa 512 (n * 512) fun i => image disk (sector * 512 + i)
      rw [readsegLoop, if_pos (by omega), readsect_eq disk pa (by omega), hsize, hnext, hoffset,
        ih _ (by omega) (by omega) (by omega), hshift, hjoin, Nat.succ_mul, Nat.add_comm (n * 512)]

/-! ## Segments as blocks -/

/-- The whole sectors that `readseg` writes for a header. -/
def Proghdr.block (h : Proghdr) (img : Memory) : Block where
  dst := h.p_pa / SECTSIZE * SECTSIZE
  size := (h.p_pa + h.p_memsz - h.p_pa / SECTSIZE * SECTSIZE + (SECTSIZE - 1)) / SECTSIZE * SECTSIZE
  data := fun i => img (h.p_offset / SECTSIZE * SECTSIZE + i)

/-- The header makes `readseg` read a sector.  An empty segment does so when
its address is inside a sector. -/
def Proghdr.Reads (h : Proghdr) : Prop := 0 < h.p_memsz ∨ h.p_pa % SECTSIZE ≠ 0

/-- What a header must satisfy for its load to stay off the scratch page and
below the top of the address space. -/
def Proghdr.Placed (h : Proghdr) : Prop :=
  h.Reads → 0x100000 ≤ h.p_pa ∧ h.p_pa + h.p_memsz < 4294967296 - SECTSIZE

/-- Below the last sector of the address space the segment is read as one block. -/
theorem readseg_below (disk : Disk) (h : Proghdr) (hend : h.p_pa + h.p_memsz ≤ 4294967296 - SECTSIZE)
    (hoffset : h.p_offset < 4294967296) (m : Memory) :
    readseg disk h.p_pa h.p_memsz h.p_offset m =
      some (overlay m (h.block (image disk)).dst (h.block (image disk)).size
        (h.block (image disk)).data) := by
  have hmod : (h.p_pa + h.p_memsz) % 4294967296 = h.p_pa + h.p_memsz := by
    apply Nat.mod_eq_of_lt
    rw [SECTSIZE] at hend
    omega
  rw [readseg, hmod]
  refine readsegLoop_eq disk m hend rfl ?_ ?_
  all_goals
    simp only [SECTSIZE] at hend ⊢
    omega

theorem readseg_block (disk : Disk) (h : Proghdr) (hplaced : h.Placed) (hpa : h.p_pa < 4294967296)
    (hoffset : h.p_offset < 4294967296) (m : Memory) :
    readseg disk h.p_pa h.p_memsz h.p_offset m =
      some (overlay m (h.block (image disk)).dst (h.block (image disk)).size
        (h.block (image disk)).data) := by
  refine readseg_below disk h ?_ hoffset m
  by_cases hreads : h.Reads
  · exact Nat.le_of_lt (hplaced hreads).2
  · simp only [Proghdr.Reads, SECTSIZE] at hreads ⊢
    omega

/-- The load of a placed header does not reach the scratch page. -/
theorem Proghdr.block_off_page {h : Proghdr} (hplaced : h.Placed) (img : Memory) {i : Nat}
    (hi : i < 4096) : ¬ (h.block img).Covers (ELFHDR + i) := by
  rintro ⟨hlow, hhigh⟩
  simp only [Proghdr.block, SECTSIZE, ELFHDR] at hlow hhigh
  by_cases hreads : h.Reads
  · have hpa := (hplaced hreads).1
    omega
  · simp only [Proghdr.Reads, SECTSIZE] at hreads
    omega

/-! ## The program-header table -/

def headersFrom (img : Memory) : Nat → Nat → List Proghdr
  | _, 0 => []
  | addr, count + 1 => readProghdr img addr :: headersFrom img (addr + 32) count

/-- The program headers of an image. -/
def headers (img : Memory) : List Proghdr := headersFrom img (readLE img 28 4) (readLE img 44 2)

/-- The scratch page holds the start of the image. -/
def PageLoaded (img m : Memory) : Prop := ∀ i < 4096, m (ELFHDR + i) = img i

theorem PageLoaded.readLE_eq {img m : Memory} (h : PageLoaded img m) {addr width : Nat}
    (hin : addr + width ≤ 4096) : readLE m (ELFHDR + addr) width = readLE img addr width := by
  apply readLE_congr
  intro i hi
  rw [Nat.add_assoc]
  exact h (addr + i) (by omega)

theorem PageLoaded.readProghdr_eq {img m : Memory} (h : PageLoaded img m) {addr : Nat}
    (hin : addr + 32 ≤ 4096) : readProghdr m (ELFHDR + addr) = readProghdr img addr := by
  simp only [readProghdr, Nat.add_assoc ELFHDR]
  rw [h.readLE_eq (by omega), h.readLE_eq (by omega), h.readLE_eq (by omega), h.readLE_eq (by omega)]

theorem PageLoaded.block {img m : Memory} (hpage : PageLoaded img m) {h : Proghdr}
    (hplaced : h.Placed) :
    PageLoaded img (overlay m (h.block img).dst (h.block img).size (h.block img).data) := by
  intro i hi
  have hoff := h.block_off_page hplaced img hi
  rw [Block.Covers] at hoff
  rw [overlay_outside _ _ (by omega), hpage i hi]

/-- The loop loads the headers of the image in their order. -/
theorem loadLoop_blocks (disk : Disk) (count addr : Nat) (m : Memory)
    (hpage : PageLoaded (image disk) m) (hin : addr + 32 * count ≤ 4096)
    (hplaced : ∀ h ∈ headersFrom (image disk) addr count, h.Placed) :
    loadLoop disk (ELFHDR + (addr + 32 * count)) count (ELFHDR + addr) m =
      some (writeBlocks ((headersFrom (image disk) addr count).map (·.block (image disk))) m) := by
  have hELF : ELFHDR = 65536 := rfl
  induction count generalizing addr m with
  | zero =>
      rw [loadLoop, if_neg (by omega)]
      rfl
  | succ count ih =>
      have hfirst := hplaced _ List.mem_cons_self
      have hread := hpage.readProghdr_eq (show addr + 32 ≤ 4096 by omega)
      have hload := readseg_block disk (readProghdr (image disk) addr) hfirst
        (readLE_four_lt _ _) (readLE_four_lt _ _) m
      have hnext : (ELFHDR + addr + 32) % 4294967296 = ELFHDR + (addr + 32) := by
        rw [Nat.add_assoc]
        exact Nat.mod_eq_of_lt (by omega)
      have hlast : addr + 32 * (count + 1) = addr + 32 + 32 * count := by omega
      rw [loadLoop, if_pos (by omega), hread]
      simp only [hload, Option.bind_eq_bind, Option.bind_some]
      rw [hnext, hlast, ih _ _ (hpage.block hfirst) (by omega)
        fun h hh => hplaced h (List.mem_cons_of_mem _ hh)]
      rfl

/-! ## The loaded kernel -/

/-- The images the loader is meant for, in terms of what its program headers
ask for. -/
structure KernelImage (img : Memory) : Prop where
  magic : readLE img 0 4 = ELF_MAGIC
  table : readLE img 28 4 + 32 * readLE img 44 2 ≤ 4096
  placed : ∀ h ∈ headers img, h.Placed
  segment : ∀ h ∈ headers img, 0 < h.p_memsz →
    h.p_filesz ≤ h.p_memsz ∧ h.p_pa % SECTSIZE = h.p_offset % SECTSIZE
  ordered : (headers img).Pairwise fun s t =>
    0 < s.p_memsz → 0 < t.p_memsz → s.p_pa + s.p_memsz ≤ t.p_pa

/-- The scratch page with the first bytes of the image. -/
def withPage (disk : Disk) (m : Memory) : Memory := overlay m ELFHDR 4096 (image disk)

theorem readseg_page (disk : Disk) (m : Memory) :
    readseg disk ELFHDR (SECTSIZE * 8) 0 m = some (withPage disk m) := by
  have hend : (ELFHDR + SECTSIZE * 8) % 4294967296 = 69632 := by decide
  have hstart : ELFHDR / SECTSIZE * SECTSIZE = ELFHDR := by decide
  have hread := readsegLoop_eq disk m (show 69632 ≤ 4294967296 - SECTSIZE by decide)
    (show 8 = (69632 - ELFHDR + (SECTSIZE - 1)) / SECTSIZE by decide)
    (show 8 < 8388609 by decide) (show 0 + 8 < 268435456 by decide)
  simp only [Nat.zero_mul, Nat.zero_add] at hread
  rw [readseg, hend, hstart]
  exact hread

theorem withPage_loaded (disk : Disk) (m : Memory) : PageLoaded (image disk) (withPage disk m) :=
  fun _ hi => overlay_apply m ELFHDR (image disk) hi

/-- The memory behind the load loop. -/
def loaded (disk : Disk) (m : Memory) : Memory :=
  writeBlocks ((headers (image disk)).map (·.block (image disk))) (withPage disk m)

theorem bootmain_eq (disk : Disk) (m : Memory) (himg : KernelImage (image disk)) :
    bootmain disk m =
      some (.enter (readLE (loaded disk m) (ELFHDR + 24) 4), loaded disk m) := by
  have hpage := withPage_loaded disk m
  have htable := himg.table
  have hphoff : (ELFHDR + readLE (image disk) 28 4) % 4294967296 =
      ELFHDR + readLE (image disk) 28 4 := by
    apply Nat.mod_eq_of_lt
    rw [ELFHDR]
    omega
  have heph : (ELFHDR + readLE (image disk) 28 4 + 32 * readLE (image disk) 44 2) % 4294967296 =
      ELFHDR + (readLE (image disk) 28 4 + 32 * readLE (image disk) 44 2) := by
    rw [Nat.add_assoc]
    apply Nat.mod_eq_of_lt
    rw [ELFHDR]
    omega
  have hmagic : readLE (withPage disk m) ELFHDR 4 = ELF_MAGIC :=
    (hpage.readLE_eq (show 0 + 4 ≤ 4096 by decide)).trans himg.magic
  have hloop := loadLoop_blocks disk _ _ _ hpage htable himg.placed
  simp only [bootmain, readseg_page, Option.bind_eq_bind, Option.bind_some, hmagic, ne_eq,
    not_true_eq_false, if_false]
  rw [hpage.readLE_eq (by omega), hpage.readLE_eq (by omega), hphoff, heph, hloop]
  rfl

/-! ## Which load decides a byte -/

/-- The first sector that the header makes `readseg` read goes over `a`. -/
def Proghdr.StartsIn (t : Proghdr) (a : Nat) : Prop :=
  t.Reads ∧ t.p_pa / SECTSIZE = a / SECTSIZE

/-- A segment above `a` reaches down to it with its first sector only. -/
theorem Proghdr.covers_iff {t : Proghdr} (img : Memory) {a : Nat}
    (h : 0 < t.p_memsz → a < t.p_pa) : (t.block img).Covers a ↔ t.StartsIn a := by
  simp only [Block.Covers, Proghdr.block, Proghdr.StartsIn, Proghdr.Reads, SECTSIZE]
  by_cases hmem : 0 < t.p_memsz
  · have := h hmem
    omega
  · omega

theorem Proghdr.block_data {t : Proghdr} (img : Memory) {a : Nat} (h : t.StartsIn a) :
    (t.block img).data (a - (t.block img).dst) =
      img (t.p_offset / SECTSIZE * SECTSIZE + a % SECTSIZE) := by
  have hsector := h.2
  have hmod : a - t.p_pa / SECTSIZE * SECTSIZE = a % SECTSIZE := by
    simp only [SECTSIZE] at hsector ⊢
    omega
  simp only [Proghdr.block, hmod]

/-- A segment reads its own bytes from the right place. -/
theorem Proghdr.block_own {s : Proghdr} (img : Memory) {j : Nat} (hj : j < s.p_memsz)
    (hcongr : s.p_pa % SECTSIZE = s.p_offset % SECTSIZE) :
    (s.block img).Covers (s.p_pa + j) ∧
      (s.block img).data (s.p_pa + j - (s.block img).dst) = img (s.p_offset + j) := by
  simp only [Block.Covers, Proghdr.block, SECTSIZE] at hcongr ⊢
  refine ⟨by omega, ?_⟩
  congr 1
  omega

/-- The hypotheses of the last two lemmas, for a segment and those behind it. -/
theorem KernelImage.later {img : Memory} (himg : KernelImage img) {before rest : List Proghdr}
    {s : Proghdr} (hsplit : headers img = before ++ s :: rest) (hmem : 0 < s.p_memsz) :
    ∀ t ∈ rest, 0 < t.p_memsz → s.p_pa + s.p_memsz ≤ t.p_pa := by
  have hordered := himg.ordered
  rw [hsplit, List.pairwise_append, List.pairwise_cons] at hordered
  intro t ht
  exact hordered.2.1.1 t ht hmem

theorem KernelImage.segment_at {img : Memory} (himg : KernelImage img)
    {before rest : List Proghdr} {s : Proghdr} (hsplit : headers img = before ++ s :: rest)
    (hmem : 0 < s.p_memsz) :
    s.p_filesz ≤ s.p_memsz ∧ s.p_pa % SECTSIZE = s.p_offset % SECTSIZE := by
  refine himg.segment s ?_ hmem
  rw [hsplit]
  exact List.mem_append_right before List.mem_cons_self

/-- A byte over which no later load starts keeps what its own segment brought. -/
theorem loaded_own {disk : Disk} (m : Memory) (himg : KernelImage (image disk))
    {before rest : List Proghdr} {s : Proghdr} {j : Nat}
    (hsplit : headers (image disk) = before ++ s :: rest) (hmem : 0 < s.p_memsz)
    (hj : j < s.p_filesz) (hrest : ∀ t ∈ rest, ¬ t.StartsIn (s.p_pa + j)) :
    loaded disk m (s.p_pa + j) = image disk (s.p_offset + j) := by
  have hseg := himg.segment_at hsplit hmem
  have hown := s.block_own (image disk) (Nat.lt_of_lt_of_le hj hseg.1) hseg.2
  rw [loaded, hsplit, List.map_append, List.map_cons, writeBlocks_last _ _ _ hown.1, hown.2]
  intro b hb
  obtain ⟨t, ht, rfl⟩ := List.mem_map.mp hb
  have hlater := himg.later hsplit hmem t ht
  rw [t.covers_iff (image disk) fun h => by have := hlater h; omega]
  exact hrest t ht

/-- The last load that starts over a byte decides it. -/
theorem loaded_last {disk : Disk} (m : Memory) (himg : KernelImage (image disk))
    {before middle after : List Proghdr} {s t : Proghdr} {j : Nat}
    (hsplit : headers (image disk) = before ++ s :: (middle ++ t :: after)) (hmem : 0 < s.p_memsz)
    (hj : j < s.p_filesz) (ht : t.StartsIn (s.p_pa + j))
    (hafter : ∀ u ∈ after, ¬ u.StartsIn (s.p_pa + j)) :
    loaded disk m (s.p_pa + j) =
      image disk (t.p_offset / SECTSIZE * SECTSIZE + (s.p_pa + j) % SECTSIZE) := by
  have hseg := himg.segment_at hsplit hmem
  have hlater := himg.later hsplit hmem
  have hcovers : ∀ u ∈ middle ++ t :: after,
      ((u.block (image disk)).Covers (s.p_pa + j) ↔ u.StartsIn (s.p_pa + j)) := by
    intro u hu
    have hpa := hlater u hu
    exact u.covers_iff (image disk) fun h => by have := hpa h; omega
  have htmem : t ∈ middle ++ t :: after := List.mem_append_right middle List.mem_cons_self
  have hblocks : (headers (image disk)).map (·.block (image disk)) =
      (before ++ s :: middle).map (·.block (image disk)) ++
        t.block (image disk) :: after.map (·.block (image disk)) := by
    rw [hsplit, ← List.cons_append, ← List.append_assoc, List.map_append, List.map_cons]
  rw [loaded, hblocks, writeBlocks_last _ _ _ ((hcovers t htmem).mpr ht),
    t.block_data (image disk) ht]
  intro b hb
  obtain ⟨u, hu, rfl⟩ := List.mem_map.mp hb
  rw [hcovers u (List.mem_append_right middle (List.mem_cons_of_mem t hu))]
  exact hafter u hu

/-! ## When the kernel is loaded -/

/-- After the load loop every segment holds its bytes of the image. -/
def LoadsSegments (disk : Disk) (m : Memory) : Prop :=
  ∃ entry m', bootmain disk m = some (.enter entry, m') ∧
    ∀ s ∈ headers (image disk), 0 < s.p_memsz →
      ∀ j < s.p_filesz, m' (s.p_pa + j) = image disk (s.p_offset + j)

/-- Wherever a later load starts over a byte of a segment, the last such load
brings the byte that was there. -/
def SectorsAgree (img : Memory) (hs : List Proghdr) : Prop :=
  ∀ before s middle t after, hs = before ++ s :: (middle ++ t :: after) → 0 < s.p_memsz →
    ∀ j < s.p_filesz, t.StartsIn (s.p_pa + j) → (∀ u ∈ after, ¬ u.StartsIn (s.p_pa + j)) →
      img (t.p_offset / SECTSIZE * SECTSIZE + (s.p_pa + j) % SECTSIZE) = img (s.p_offset + j)

theorem LoadsSegments.loaded_eq {disk : Disk} {m : Memory} (himg : KernelImage (image disk))
    (h : LoadsSegments disk m) {s : Proghdr} (hs : s ∈ headers (image disk)) (hmem : 0 < s.p_memsz)
    {j : Nat} (hj : j < s.p_filesz) :
    loaded disk m (s.p_pa + j) = image disk (s.p_offset + j) := by
  obtain ⟨entry, m', hboot, hbytes⟩ := h
  rw [bootmain_eq disk m himg, Option.some.injEq, Prod.mk.injEq] at hboot
  rw [hboot.2]
  exact hbytes s hs hmem j hj

/-- The loader puts every segment in place if and only if the sectors that it
reads twice agree. -/
theorem bootmain_loads_iff (disk : Disk) (m : Memory) (himg : KernelImage (image disk)) :
    LoadsSegments disk m ↔ SectorsAgree (image disk) (headers (image disk)) := by
  constructor
  · intro hloads before s middle t after hsplit hmem j hj ht hafter
    have hs : s ∈ headers (image disk) := by
      rw [hsplit]
      exact List.mem_append_right before List.mem_cons_self
    rw [← loaded_last m himg hsplit hmem hj ht hafter, hloads.loaded_eq himg hs hmem hj]
  · intro hagree
    refine ⟨_, _, bootmain_eq disk m himg, ?_⟩
    intro s hs hmem j hj
    obtain ⟨before, rest, hsplit⟩ := List.append_of_mem hs
    rcases none_or_last (Proghdr.StartsIn · (s.p_pa + j)) rest with
      hnone | ⟨middle, t, after, rfl, ht, hafter⟩
    · exact loaded_own m himg hsplit hmem hj hnone
    · rw [loaded_last m himg hsplit hmem hj ht hafter]
      exact hagree before s middle t after hsplit hmem j hj ht hafter

/-- Sectors agree in an image whose loads are all shifted by the same amount. -/
theorem sectorsAgree_of_displacement {img : Memory} (himg : KernelImage img)
    (hshift : ∀ s ∈ headers img, ∀ t ∈ headers img, t.p_pa + s.p_offset = s.p_pa + t.p_offset) :
    SectorsAgree img (headers img) := by
  intro before s middle t after hsplit hmem j hj ht hafter
  have hcongr := (himg.segment_at hsplit hmem).2
  have hsame := hshift s (by simp [hsplit]) t (by simp [hsplit])
  have hsector := ht.2
  simp only [SECTSIZE] at hcongr hsector ⊢
  congr 1
  omega

/-! ## Two segments in one sector -/

def diskOf (img : Memory) : Disk := fun sector i => img ((sector - 1) * SECTSIZE + i)

@[simp]
theorem image_diskOf (img : Memory) : image (diskOf img) = img := by
  funext o
  simp only [image, diskOf, SECTSIZE]
  congr 1
  omega

/-- Sixteen bytes from 0x1000 on go to 0x100000, and sixteen from `high * 256 +
0x10` on go behind them. -/
def twoSegments (high : Byte) : Memory := fun o =>
  if 0x1000 ≤ o ∧ o < 0x1010 then 0xAA
  else match o with
    | 0 => 0x7F
    | 1 => 0x45
    | 2 => 0x4C
    | 3 => 0x46
    | 28 => 52
    | 44 => 2
    | 57 => 0x10
    | 66 => 0x10
    | 68 => 0x10
    | 72 => 0x10
    | 88 => 0x10
    | 89 => high
    | 96 => 0x10
    | 98 => 0x10
    | 100 => 0x10
    | 104 => 0x10
    | _ => 0

def firstSegment : Proghdr where
  p_offset := 0x1000
  p_pa := 0x100000
  p_filesz := 0x10
  p_memsz := 0x10

def secondSegment (high : Byte) : Proghdr where
  p_offset := 0x10 + 256 * high.toNat
  p_pa := 0x100010
  p_filesz := 0x10
  p_memsz := 0x10

theorem headers_twoSegments (high : Byte) :
    headers (twoSegments high) = [firstSegment, secondSegment high] := by
  simp [headers, headersFrom, readProghdr, readLE, twoSegments, firstSegment, secondSegment]

theorem kernelImage_twoSegments {high : Byte} (h : high.toNat % 2 = 0) :
    KernelImage (twoSegments high) where
  magic := by simp [readLE, twoSegments, ELF_MAGIC]
  table := by simp [readLE, twoSegments]
  placed := by
    rw [headers_twoSegments]
    simp [Proghdr.Placed, firstSegment, secondSegment, SECTSIZE]
  segment := by
    rw [headers_twoSegments]
    simp [firstSegment, secondSegment, SECTSIZE]
    omega
  ordered := by
    rw [headers_twoSegments]
    simp [firstSegment, secondSegment]

/-- The second segment comes from another sector of the image and takes the
first one with it. -/
theorem bootmain_stray_sector :
    ¬ ∀ (disk : Disk) (m : Memory), KernelImage (image disk) → LoadsSegments disk m := by
  intro hall
  have himg : KernelImage (image (diskOf (twoSegments 0x12))) := by
    rw [image_diskOf]
    exact kernelImage_twoSegments rfl
  have hheaders : headers (image (diskOf (twoSegments 0x12))) =
      [] ++ firstSegment :: ([] ++ secondSegment 0x12 :: []) := by
    rw [image_diskOf]
    exact headers_twoSegments 0x12
  have hstarts : (secondSegment 0x12).StartsIn (firstSegment.p_pa + 0) := ⟨.inl (by decide), rfl⟩
  have hfirst : firstSegment ∈ headers (image (diskOf (twoSegments 0x12))) := by
    rw [hheaders]
    exact List.mem_cons_self
  have hbyte := (hall _ (fun _ => 0) himg).loaded_eq himg hfirst (by decide) (j := 0) (by decide)
  rw [loaded_last _ himg hheaders (by decide) (by decide) hstarts (by simp), image_diskOf] at hbyte
  revert hbyte
  decide

theorem bootmain_loads_adjacent : LoadsSegments (diskOf (twoSegments 0x10)) fun _ => 0 := by
  have himg : KernelImage (image (diskOf (twoSegments 0x10))) := by
    rw [image_diskOf]
    exact kernelImage_twoSegments rfl
  refine (bootmain_loads_iff _ _ himg).mpr (sectorsAgree_of_displacement himg ?_)
  rw [image_diskOf, headers_twoSegments]
  simp [firstSegment, secondSegment]

end JOSKernel.Boot.Main
