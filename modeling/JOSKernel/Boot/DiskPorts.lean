import JOSKernel.Boot.Main
import JOSKernel.General.Lockstep
import JOSKernel.General.Polling

/-!
# The boot loader at the ports of the disk (`boot/main.c`, `inc/x86.h`)

`readsect` asks an IDE disk for a sector and takes it out of the data port word
by word.  A busy disk takes nothing and gives nothing, so that the loader polls
its status before it writes and before it reads.
-/

namespace JOSKernel.Boot.DiskPorts

open JOSKernel.General.ByteMemory
open JOSKernel.General.Lockstep
open JOSKernel.General.MachineInt
open JOSKernel.General.Polling
open JOSKernel.Boot.Main

/-! ## The disk -/

/-- Drive ready, and not busy. -/
def diskReady (status : Byte) : Bool := status &&& 0xC0 == 0x40

/-- The first disk of an IDE channel: its registers, what it answers to the polls
now and behind each further command, and the data that it has still to give. -/
structure Ide where
  disk : Disk
  regs : Nat → Byte
  status : Status diskReady
  later : Nat → Status diskReady
  buffer : List Byte

/-- The bytes of the selected sectors; a count of zero means 256. -/
def Ide.requested (d : Ide) : List Byte :=
  let first := sectorAddress (d.regs 0x1F3) (d.regs 0x1F4) (d.regs 0x1F5) (d.regs 0x1F6)
  let count := if d.regs 0x1F2 = 0 then 256 else (d.regs 0x1F2).toNat
  (List.range count).flatMap fun k => readBytes (d.disk (first + k)) 0 SECTSIZE

/-- Start to read sectors.  The drive register has to select the first drive and
addresses that number the sectors. -/
def Ide.start (d : Ide) : Ide :=
  if d.regs 0x1F6 &&& 0x50 = 0x40 then
    { d with
      buffer := d.requested
      status := d.later 0
      later := fun n => d.later (n + 1) }
  else d

def Ide.outb (port : Nat) (value : Byte) (d : Ide) : Ide :=
  if d.status.isIdle then
    if port = 0x1F7 then if value = 0x20 then d.start else d
    else { d with regs := fun p => if p = port then value else d.regs p }
  else d

/-- The status register, port 0x1F7. -/
def status : Register Ide diskReady where
  get d := d.status
  set x d := { d with status := x }
  get_set _ _ := rfl
  set_set _ _ _ := rfl

/-- The data register, port 0x1F0. -/
def Ide.inl (d : Ide) : Word × Ide :=
  if d.status.isIdle then
    (BitVec.ofNat 32 (readLE (fun i => d.buffer.getD i 0) 0 4),
      { d with buffer := d.buffer.drop 4 })
  else (0xFFFFFFFF, d)

/-! ## The loader -/

/-- Wait for the disk, for at most `polls` rounds. -/
def waitdisk (polls : Nat) (d : Ide) : Option Ide := status.poll polls d

def insl (addr : Nat) : Nat → Ide × Memory → Ide × Memory
  | 0, s => s
  | cnt + 1, s => insl ((addr + 4) % 4294967296) cnt (s.1.inl.2, storeWord s.2 addr s.1.inl.1)

def readsect (polls dst offset : Nat) (s : Ide × Memory) : Option (Ide × Memory) := do
  -- wait for disk to be ready
  let d ← waitdisk polls s.1
  let d := d.outb 0x1F2 1 -- count = 1
  let d := d.outb 0x1F3 (BitVec.ofNat 8 offset)
  let d := d.outb 0x1F4 (BitVec.ofNat 8 (offset / 256))
  let d := d.outb 0x1F5 (BitVec.ofNat 8 (offset / 65536))
  let d := d.outb 0x1F6 (BitVec.ofNat 8 (offset / 16777216) ||| 0xE0)
  let d := d.outb 0x1F7 0x20 -- cmd 0x20 - read sectors
  -- wait for disk to be ready
  let d ← waitdisk polls d
  -- read a sector
  some (insl dst (SECTSIZE / 4) (d, s.2))

def readsegLoop (polls endPa : Nat) :
    Nat → Nat → Nat → Ide × Memory → Option (Ide × Memory)
  | 0, _, _, _ => none
  | fuel + 1, pa, offset, s =>
      if pa < endPa then do
        let s ← readsect polls pa offset s
        readsegLoop polls endPa fuel ((pa + SECTSIZE) % 4294967296) ((offset + 1) % 4294967296) s
      else some s

def readseg (polls pa count offset : Nat) (s : Ide × Memory) : Option (Ide × Memory) :=
  let endPa := (pa + count) % 4294967296
  readsegLoop polls endPa 8388609 (pa / SECTSIZE * SECTSIZE) (offset / SECTSIZE + 1) s

def loadLoop (polls eph : Nat) : Nat → Nat → Ide × Memory → Option (Ide × Memory)
  | 0, ph, s => if ph < eph then none else some s
  | count + 1, ph, s =>
      if ph < eph then do
        let h := readProghdr s.2 ph
        let s ← readseg polls h.p_pa h.p_memsz h.p_offset s
        loadLoop polls eph count ((ph + 32) % 4294967296) s
      else some s

def bootmain (polls : Nat) (s : Ide × Memory) : Option (Outcome × Ide × Memory) := do
  let s ← readseg polls ELFHDR (SECTSIZE * 8) 0 s
  if readLE s.2 ELFHDR 4 ≠ ELF_MAGIC then some (.bad, s)
  else
    let phnum := readLE s.2 (ELFHDR + 44) 2
    let ph := (ELFHDR + readLE s.2 (ELFHDR + 28) 4) % 4294967296
    let s ← loadLoop polls ((ph + 32 * phnum) % 4294967296) phnum ph s
    some (.enter (readLE s.2 (ELFHDR + 24) 4), s)

/-! ## One sector -/

/-- The disk has nothing left to give, and says within `polls` polls that it is
ready, now and behind each command. -/
structure Ide.Serves (disk : Disk) (polls : Nat) (d : Ide) : Prop where
  disk : d.disk = disk
  empty : d.buffer = []
  now : d.status.waits.length < polls
  later : ∀ n, (d.later n).waits.length < polls

theorem waitdisk_eq {d : Ide} {polls : Nat} (h : d.status.waits.length < polls) :
    waitdisk polls d = some { d with status := d.status.idle } := by
  rw [waitdisk, Register.poll_eq]
  exact if_pos h

/-- The words from the data port make up the bytes that the disk has to give. -/
theorem insl_eq {addr cnt : Nat} {d : Ide} (hidle : d.status.isIdle = true) (m : Memory)
    (hfit : addr + 4 * cnt ≤ 4294967296) :
    insl addr cnt (d, m) = ({ d with buffer := d.buffer.drop (4 * cnt) },
      overlay m addr (4 * cnt) fun i => d.buffer.getD i 0) := by
  induction cnt generalizing addr d m with
  | zero => rw [insl, Nat.mul_zero, overlay_zero, List.drop_zero]
  | succ cnt ih =>
      have hread : d.inl = (BitVec.ofNat 32 (readLE (fun i => d.buffer.getD i 0) 0 4),
          { d with buffer := d.buffer.drop 4 }) := if_pos hidle
      have hword : storeWord m addr (BitVec.ofNat 32 (readLE (fun i => d.buffer.getD i 0) 0 4)) =
          overlay m addr 4 fun i => d.buffer.getD i 0 := by
        refine overlay_congr m addr 4 fun i hi => ?_
        rw [wordBytes_readLE _ _ hi, Nat.zero_add]
      have hnext : overlay (overlay m addr 4 fun i => d.buffer.getD i 0)
          ((addr + 4) % 4294967296) (4 * cnt) (fun i => (d.buffer.drop 4).getD i 0) =
            overlay m addr (4 * (cnt + 1)) fun i => d.buffer.getD i 0 := by
        cases cnt with
        | zero => rw [Nat.mul_zero, overlay_zero]
        | succ cnt =>
            rw [Nat.mod_eq_of_lt (by omega), Nat.mul_add 4 (cnt + 1) 1,
              Nat.add_comm (4 * (cnt + 1)), ← overlay_append m addr 4 (4 * (cnt + 1))]
            refine overlay_congr _ _ _ fun i _ => ?_
            rw [List.getD_eq_getElem?_getD, List.getD_eq_getElem?_getD, List.getElem?_drop]
      have hrest := @ih ((addr + 4) % 4294967296) { d with buffer := d.buffer.drop 4 } hidle
        (overlay m addr 4 fun i => d.buffer.getD i 0) (by omega)
      have hdrop : (d.buffer.drop 4).drop (4 * cnt) = d.buffer.drop (4 * (cnt + 1)) := by
        rw [List.drop_drop, Nat.add_comm 4, Nat.mul_succ]
      rw [insl, hread, hword, hrest, hnext, hdrop]

/-- The registers behind the writes that select one sector. -/
def selecting (offset : Nat) (regs : Nat → Byte) : Nat → Byte := fun port =>
  if port = 0x1F6 then BitVec.ofNat 8 (offset / 16777216) ||| 0xE0
  else if port = 0x1F5 then BitVec.ofNat 8 (offset / 65536)
  else if port = 0x1F4 then BitVec.ofNat 8 (offset / 256)
  else if port = 0x1F3 then BitVec.ofNat 8 offset
  else if port = 0x1F2 then 1
  else regs port

theorem first_drive {offset : Nat} (h : offset < 268435456) {regs : Nat → Byte} :
    selecting offset regs 0x1F6 &&& 0x50 = 0x40 := by
  have hhigh : ∀ q < 16, (BitVec.ofNat 8 q ||| 0xE0) &&& 0x50 = 0x40 := by decide
  exact hhigh _ (by omega)

/-- A command for one sector. -/
theorem Ide.outb_command {d : Ide} (hidle : d.status.isIdle = true) {offset : Nat}
    (hoffset : offset < 268435456) {regs : Nat → Byte} (hregs : d.regs = selecting offset regs) :
    d.outb 0x1F7 0x20 =
      { d with
        buffer := readBytes (d.disk offset) 0 SECTSIZE
        status := d.later 0
        later := fun n => d.later (n + 1) } := by
  have hcount : d.regs 0x1F2 = 1 := by rw [hregs]; rfl
  have hdrive : d.regs 0x1F6 &&& 0x50 = 0x40 := by rw [hregs]; exact first_drive hoffset
  have hsector : sectorAddress (d.regs 0x1F3) (d.regs 0x1F4) (d.regs 0x1F5) (d.regs 0x1F6) =
      offset := by rw [hregs]; exact sectorAddress_eq hoffset
  have hrequested : d.requested = readBytes (d.disk offset) 0 SECTSIZE := by
    simp only [Ide.requested, hsector, hcount, if_neg (show ¬ (1 : Byte) = 0 by decide),
      show (1 : Byte).toNat = 1 from rfl, List.range_one, List.flatMap_cons, List.flatMap_nil,
      List.append_nil, Nat.add_zero]
  rw [Ide.outb, if_pos hidle, if_pos rfl, if_pos rfl, Ide.start, if_pos hdrive, hrequested]

/-- However long the disk is busy, `readsect` gets the sector that it asks for. -/
theorem readsect_serves {disk : Disk} {polls : Nat} {d : Ide} (hserves : d.Serves disk polls)
    {dst offset : Nat} (hdst : dst + SECTSIZE ≤ 4294967296) (hoffset : offset < 268435456)
    (m : Memory) :
    ∃ d', readsect polls dst offset (d, m) = some (d', Main.readsect disk dst offset m) ∧
      d'.Serves disk polls := by
  obtain ⟨asked, hasked, hidle, hregs, hdisk, hlater⟩ : ∃ asked : Ide,
      (((((({ d with status := d.status.idle } : Ide).outb 0x1F2 1).outb 0x1F3
        (BitVec.ofNat 8 offset)).outb 0x1F4 (BitVec.ofNat 8 (offset / 256))).outb 0x1F5
        (BitVec.ofNat 8 (offset / 65536))).outb 0x1F6
        (BitVec.ofNat 8 (offset / 16777216) ||| 0xE0)) = asked ∧
      asked.status.isIdle = true ∧ asked.regs = selecting offset d.regs ∧ asked.disk = d.disk ∧
      asked.later = d.later :=
    ⟨_, rfl, rfl, rfl, rfl, rfl⟩
  obtain ⟨data, hdata⟩ : ∃ data, readBytes (asked.disk offset) 0 SECTSIZE = data := ⟨_, rfl⟩
  have hlength : data.length = SECTSIZE := by rw [← hdata, readBytes_length]
  have hcommand := asked.outb_command hidle hoffset hregs
  rw [hdata] at hcommand
  have hnow : (asked.later 0).waits.length < polls := by
    rw [hlater]
    exact hserves.later 0
  have hagain : waitdisk polls (asked.outb 0x1F7 0x20) = some { asked.outb 0x1F7 0x20 with
      status := (asked.outb 0x1F7 0x20).status.idle } := waitdisk_eq (by rwa [hcommand])
  have hsize : 4 * (SECTSIZE / 4) = SECTSIZE := rfl
  have hread := @insl_eq dst (SECTSIZE / 4) { asked with
    buffer := data
    status := (asked.later 0).idle
    later := fun n => asked.later (n + 1) } rfl m (by rw [hsize]; exact hdst)
  have hsector : (overlay m dst SECTSIZE fun i => data.getD i 0) =
      Main.readsect disk dst offset m := by
    rw [Main.readsect, sectorAddress_eq hoffset, ← hserves.disk, ← hdisk]
    refine overlay_congr m dst SECTSIZE fun i hi => ?_
    have hin : i < (readBytes (asked.disk offset) 0 SECTSIZE).length := by rwa [readBytes_length]
    rw [← hdata, List.getD_eq_getElem?_getD, List.getElem?_eq_getElem hin, getElem_readBytes,
      Nat.zero_add]
    rfl
  refine ⟨{ asked with
    buffer := data.drop SECTSIZE
    status := (asked.later 0).idle
    later := fun n => asked.later (n + 1) }, ?_, hdisk.trans hserves.disk, ?_, ?_, fun n => ?_⟩
  · rw [readsect, waitdisk_eq hserves.now]
    simp only [Option.bind_eq_bind, Option.bind_some, hasked, hagain]
    rw [hcommand, hread, hsize, hsector]
  · exact List.drop_eq_nil_of_le (Nat.le_of_eq hlength)
  · exact Nat.lt_of_le_of_lt (Nat.zero_le _) hserves.now
  · show (asked.later (n + 1)).waits.length < polls
    rw [hlater]
    exact hserves.later (n + 1)

/-! ## The loader -/

/-- The disk serves, and the loader has read what the disk holds. -/
def Reads (disk : Disk) (polls : Nat) (s : Ide × Memory) (m : Memory) : Prop :=
  s.1.Serves disk polls ∧ s.2 = m

variable {disk : Disk} {polls : Nat}

theorem readsegLoop_reads (endPa fuel : Nat) {pa offset : Nat} (hpa : pa < 4294967296)
    (haligned : pa % SECTSIZE = 0) (hoffset : offset + fuel ≤ 268435456) {s : Ide × Memory}
    {m : Memory} (hs : Reads disk polls s m) :
    Option.Rel (Reads disk polls) (readsegLoop polls endPa fuel pa offset s)
      (Main.readsegLoop disk endPa fuel pa offset m) := by
  have hsize : SECTSIZE = 512 := rfl
  induction fuel generalizing pa offset s m with
  | zero => exact .none
  | succ fuel ih =>
      obtain ⟨d, mem⟩ := s
      obtain ⟨hserves, rfl⟩ := hs
      have hroom : pa + SECTSIZE ≤ 4294967296 := by
        rw [hsize] at haligned ⊢
        omega
      obtain ⟨d', hread, hserves'⟩ := readsect_serves hserves hroom
        (show offset < 268435456 by omega) mem
      rw [readsegLoop, Main.readsegLoop]
      by_cases hlt : pa < endPa
      · rw [if_pos hlt, if_pos hlt, hread]
        refine ih (Nat.mod_lt _ (by decide)) ?_ (by omega) ⟨hserves', rfl⟩
        rw [hsize] at haligned ⊢
        omega
      · rw [if_neg hlt, if_neg hlt]
        exact .some ⟨hserves, rfl⟩

theorem readseg_ports {pa count offset : Nat} (hpa : pa < 4294967296)
    (hoffset : offset < 4294967296) {s : Ide × Memory} {m : Memory} (hs : Reads disk polls s m) :
    Option.Rel (Reads disk polls) (readseg polls pa count offset s)
      (Main.readseg disk pa count offset m) := by
  refine readsegLoop_reads _ _ ?_ (Nat.mul_mod_left _ _) ?_ hs
  · exact Nat.lt_of_le_of_lt (Nat.div_mul_le_self pa SECTSIZE) hpa
  · rw [show SECTSIZE = 512 from rfl]
    omega

theorem loadLoop_reads (eph count : Nat) {ph : Nat} {s : Ide × Memory} {m : Memory}
    (hs : Reads disk polls s m) :
    Option.Rel (Reads disk polls) (loadLoop polls eph count ph s)
      (Main.loadLoop disk eph count ph m) := by
  induction count generalizing ph s m with
  | zero =>
      rw [loadLoop, Main.loadLoop]
      split
      · exact .none
      · exact .some hs
  | succ count ih =>
      rw [loadLoop, Main.loadLoop]
      split
      · rw [hs.2]
        exact bind_rel (readseg_ports (readLE_four_lt m _) (readLE_four_lt m _) hs)
          fun _ _ hs' => ih hs'
      · exact .some hs

/-- The loader that works with the ports does what the loader of whole sectors
does. -/
theorem bootmain_reads {s : Ide × Memory} {m : Memory} (hs : Reads disk polls s m) :
    Option.Rel (fun x y => x.1 = y.1 ∧ Reads disk polls x.2 y.2) (bootmain polls s)
      (Main.bootmain disk m) := by
  refine bind_rel (readseg_ports (by decide) (by decide) hs) fun s' m' hs' => ?_
  rw [hs'.2]
  split
  · exact .some ⟨rfl, hs'⟩
  · refine bind_rel (loadLoop_reads _ _ hs') fun s'' m'' hs'' => ?_
    exact .some ⟨by rw [hs''.2], hs''⟩

theorem bootmain_reads_iff {d : Ide} (hserves : d.Serves disk polls) (m : Memory)
    (y : Outcome × Memory) :
    (∃ x, bootmain polls (d, m) = some x ∧ x.1 = y.1 ∧ Reads disk polls x.2 y.2) ↔
      Main.bootmain disk m = some y := by
  have hreads : Reads disk polls (d, m) m := ⟨hserves, rfl⟩
  exact exists_rel_iff (bootmain_reads hreads) (f := fun x => (x.1, x.2.2))
    (fun _ _ h => Prod.ext h.1 h.2.2) y

theorem bootmain_serves {d : Ide} (hserves : d.Serves disk polls) {m m' : Memory}
    {outcome : Outcome} (h : Main.bootmain disk m = some (outcome, m')) :
    ∃ d', bootmain polls (d, m) = some (outcome, d', m') ∧ d'.Serves disk polls := by
  obtain ⟨⟨_, d', _⟩, hrun, rfl, hserves', rfl⟩ := (bootmain_reads_iff hserves m _).mpr h
  exact ⟨d', hrun, hserves'⟩

/-- Whatever the disk answers while it is busy and however often it does, the
loader ends at its ports as it does with whole sectors, with the same memory. -/
theorem bootmain_ports {d : Ide} (hserves : d.Serves disk polls) (m m' : Memory)
    (outcome : Outcome) :
    (∃ d', bootmain polls (d, m) = some (outcome, d', m') ∧ d'.Serves disk polls) ↔
      Main.bootmain disk m = some (outcome, m') := by
  constructor
  · rintro ⟨d', h, hserves'⟩
    exact (bootmain_reads_iff hserves m _).mp ⟨_, h, rfl, hserves', rfl⟩
  · exact bootmain_serves hserves

/-- A disk that is busy for one poll at first and for two behind each command. -/
def busyDisk (disk : Disk) : Ide where
  disk := disk
  regs := fun _ => 0
  status := ⟨[⟨0x80, rfl⟩], ⟨0x50, rfl⟩⟩
  later := fun _ => ⟨[⟨0xD0, rfl⟩, ⟨0x80, rfl⟩], ⟨0x58, rfl⟩⟩
  buffer := []

theorem bootmain_ports_busy :
    ∃ d', bootmain 3 (busyDisk (diskOf (twoSegments 0x10)), fun _ => 0) =
      some
        (.enter (readLE (Main.loaded (diskOf (twoSegments 0x10)) fun _ => 0) (ELFHDR + 24) 4), d',
          Main.loaded (diskOf (twoSegments 0x10)) fun _ => 0) ∧
      d'.Serves (diskOf (twoSegments 0x10)) 3 := by
  have himg : KernelImage (image (diskOf (twoSegments 0x10))) := by
    rw [image_diskOf]
    exact kernelImage_twoSegments rfl
  have hserves : (busyDisk (diskOf (twoSegments 0x10))).Serves (diskOf (twoSegments 0x10)) 3 :=
    ⟨rfl, rfl, by decide, fun _ => Nat.lt_succ_self 2⟩
  exact (bootmain_ports hserves _ _ _).mpr (bootmain_eq _ _ himg)

end JOSKernel.Boot.DiskPorts
