import JOSKernel.Boot.Handover
import JOSKernel.Kern.Init

/-!
# From the disk to the serial line

The boot loader, the code of `entry.S` and the kernel's C code one after the
other.  The frame pointer that `entry.S` clears ends the backtrace behind the
frame of `i386_init`.
-/

namespace JOSKernel.Boot.KernelSession

open JOSKernel.General.ByteMemory
open JOSKernel.General.CallStack
open JOSKernel.General.Interaction
open JOSKernel.General.MachineInt
open JOSKernel.Boot.Main
open JOSKernel.Boot.Paging
open JOSKernel.Boot.Processor
open JOSKernel.Boot.Entry
open JOSKernel.Boot.Handover
open JOSKernel.Kern.ConsoleOutput (KERNBASE Console)
open JOSKernel.Kern.ConsolePorts
open JOSKernel.Kern.Init
open JOSKernel.Kern.Kdebug
open JOSKernel.Kern.Monitor
open JOSKernel.Kern.MonitorLoop
open JOSKernel.Kern.SerialLine
open JOSKernel.Kern.TestBacktrace
open JOSKernel.Lib.Printfmt
open JOSKernel.Lib.Readline
open JOSKernel.Lib.StringMemory

/-- Memory as the kernel sees it. -/
def virtualMemory (m : Processor.Machine) : Memory := fun a =>
  match m.access (BitVec.ofNat 32 a) false with
  | some pa => m.mem pa.toNat
  | none => 0

theorem virtualMemory_kernel {m : Processor.Machine} (hmaps : Maps m) {a : Nat}
    (hlow : KERNBASE ≤ a) (hhigh : a < KERNBASE + PTSIZE) :
    virtualMemory m a = m.mem (a - KERNBASE) := by
  have hbase : KERNBASE = 4026531840 := rfl
  have hsize : PTSIZE = 4194304 := rfl
  have haddr : (BitVec.ofNat 32 a).toNat = a := by
    rw [BitVec.toNat_ofNat]
    simp only [Nat.reducePow]
    omega
  have hplace : (BitVec.ofNat 32 a - BitVec.ofNat 32 KERNBASE).toNat = a - KERNBASE := by
    have hreloc := RELOC_toNat (show KERNBASE ≤ (BitVec.ofNat 32 a).toNat by rw [haddr]; exact hlow)
    rw [haddr] at hreloc
    exact hreloc
  rw [virtualMemory, hmaps, earlyMap, haddr, if_neg (by omega), if_pos ⟨hlow, hhigh⟩]
  show m.mem (BitVec.ofNat 32 a - BitVec.ofNat 32 KERNBASE).toNat = _
  rw [hplace]

/-- The stack at the entry of `i386_init`. -/
def entryStack (m : Processor.Machine) : Stack := ⟨m.esp, m.ebp, virtualMemory m⟩

/-- The stack on which `i386_init` runs, with room for its locals. -/
def initStack (m : Processor.Machine) (room : Nat) : Stack := (entryStack m).enter room

/-- What the build has to provide, with `room` for the locals of `i386_init`:
the test fits on the stack, the uninitialized data lie behind the stack, and the
addresses on the stack are known. -/
structure Provided (s : Entry.Symbols) (build : Build) (room depth : Nat) : Prop where
  fits : room + 6 * (12 + build.sites.room) + (20 + build.sites.monRoom) + 8 < KSTKSIZE
  edata : s.bootstacktop.toNat ≤ build.edata
  bss : build.edata ≤ build.bssEnd ∧ build.bssEnd ≤ 4294967296
  spin : Knows build.image (spin s)
  mon : Knows build.image build.sites.mon
  again : Knows build.image build.sites.again
  first : Knows build.image build.first
  depth : 8 < depth
  buf_pos : 0 < build.buf
  buf_end : build.buf + BUFLEN ≤ 4294967296

/-- The address behind the call, as the kernel sees it. -/
theorem virtual_return {s : Entry.Symbols} (hlinked : Linked s) {m m' : Processor.Machine}
    (hstarted : Started s m m') :
    m'.esp.toNat + 4 = s.bootstacktop.toNat ∧
      readLE (virtualMemory m') m'.esp.toNat 4 = (spin s).toNat := by
  have hbase : KERNBASE = 4026531840 := rfl
  have hlink : LINK = 4027580416 := rfl
  have hsize : PTSIZE = 4194304 := rfl
  have hlow := hlinked.stack_low
  have hhigh := hlinked.stack_high
  have hesp : m'.esp.toNat + 4 = s.bootstacktop.toNat := by
    rw [hstarted.esp]
    exact room_below (show 4 ≤ s.bootstacktop.toNat by omega)
  have hplace := RELOC_toNat (show KERNBASE ≤ m'.esp.toNat by omega)
  refine ⟨hesp, ?_⟩
  rw [← hstarted.returns, hplace]
  refine readLE_congr fun i hi => ?_
  have hoffset : m'.esp.toNat + i - KERNBASE = m'.esp.toNat - KERNBASE + i := by omega
  rw [virtualMemory_kernel hstarted.maps (by omega) (by omega), hoffset]

theorem cleared_below (build : Build)
    (hbss : build.edata ≤ build.bssEnd ∧ build.bssEnd ≤ 4294967296) (s : Stack) {a : Nat}
    (ha : a < build.edata) : (cleared build s).mem a = s.mem a := by
  show memset s.mem build.edata 0 (build.bssEnd - build.edata) a = s.mem a
  rw [memset_eq _ _ (by omega), overlay_outside _ _ (.inl ha)]

/-- `i386_init` starts in a frame that is the last one of every backtrace. -/
theorem runnable_started {s : Entry.Symbols} (hlinked : Linked s) {build : Build} {room depth : Nat}
    (hprovided : Provided s build room depth) {m m' : Processor.Machine}
    (hstarted : Started s m m') :
    ∃ frame, frame.eip = spin s ∧ Runnable build [frame] depth (initStack m' room) := by
  have hbase : KERNBASE = 4026531840 := rfl
  have hlink : LINK = 4027580416 := rfl
  have hsize : PTSIZE = 4194304 := rfl
  have hstack : KSTKSIZE = 32768 := rfl
  have hlow := hlinked.stack_low
  have hhigh := hlinked.stack_high
  have hfits := hprovided.fits
  have hedata := hprovided.edata
  obtain ⟨hesp, hspin⟩ := virtual_return hlinked hstarted
  have hentered : Entered (entryStack m') (initStack m' room) room :=
    enter_spec (entryStack m') (show 4 + room ≤ m'.esp.toNat by omega)
  have hebp : (initStack m' room).ebp.toNat + 4 = m'.esp.toNat := hentered.ebp
  have hroom := hentered.esp
  have hbelow {a : Nat} (ha : a < build.edata) :=
    cleared_below build hprovided.bss (initStack m' room) ha
  have hsaved :
      stackWord (cleared build (initStack m' room)).mem (initStack m' room).ebp 0 = 0 := by
    have hword : readLE (cleared build (initStack m' room)).mem (initStack m' room).ebp.toNat 4 =
        m'.ebp.toNat :=
      (readLE_congr fun i hi => hbelow (by omega)).trans hentered.saved
    rw [stackWord, Nat.mul_zero, BitVec.add_zero, hword, hstarted.ebp]
    rfl
  have hreturn : stackWord (cleared build (initStack m' room)).mem (initStack m' room).ebp 1 =
      spin s := by
    have haddr : ((initStack m' room).ebp + BitVec.ofNat 32 (4 * 1)).toNat = m'.esp.toNat := by
      rw [BitVec.toNat_add, BitVec.toNat_ofNat]
      simp only [Nat.reducePow]
      omega
    have hword :
        readLE (cleared build (initStack m' room)).mem m'.esp.toNat 4 = (spin s).toNat := by
      rw [← hspin]
      refine readLE_congr fun i hi => ?_
      rw [hbelow (by omega)]
      exact hentered.above _ (Nat.le_add_right _ _)
    rw [stackWord, haddr, hword, BitVec.ofNat_toNat, BitVec.setWidth_eq]
  have hframe : (frameAt (cleared build (initStack m' room)).mem (initStack m' room).ebp).ebp =
      (initStack m' room).ebp := rfl
  refine ⟨frameAt (cleared build (initStack m' room)).mem (initStack m' room).ebp, hreturn, ?_⟩
  constructor
  · refine ⟨.cons ?_ ?_, ?_, ?_⟩
    · intro hzero
      rw [show (cleared build (initStack m' room)).ebp = (initStack m' room).ebp from rfl] at hzero
      rw [hzero, show (0 : Word).toNat = 0 from rfl] at hebp
      omega
    · rw [show (cleared build (initStack m' room)).ebp = (initStack m' room).ebp from rfl, hsaved]
      exact .nil
    · rw [List.forall_mem_singleton, hframe]
      show (initStack m' room).esp.toNat ≤ _
      omega
    · rw [List.forall_mem_singleton, hframe]
      omega
  · rw [List.forall_mem_singleton, show Frame.eip _ = spin s from hreturn]
    exact hprovided.spin
  · exact hprovided.mon
  · exact hprovided.again
  · exact hprovided.first
  · exact hprovided.depth
  · omega
  · omega
  · exact hprovided.buf_pos
  · exact hprovided.buf_end

/-- From a disk that holds a kernel image to the prompt: the boot loader calls
the entry point, from there the processor gets to `i386_init`, and the serial
line transmits the greeting, the backtrace test, whose eight entries end with
the frame that `entry.S` has started, and the session of a monitor that never
returns. -/
theorem boot_transcript {τ : Type} {s : Entry.Symbols} (hlinked : Linked s) {disk : Disk}
    (hfile : KernelFile s (image disk)) (mem : Memory) {build : Build} {room depth : Nat}
    (hprovided : Provided s build room depth) (tf : τ) (stack : Nat → Nat) (eipinfo : Eipdebuginfo)
    (seen : BitVec 16) {keys : List Word} (hkeys : ∀ c ∈ keys, c.toNat ≤ 255) (st : Console)
    (u : Uart) :
    ∃ e_entry mem', bootmain disk mem = some (.enter e_entry, mem') ∧
      ∀ m : Processor.Machine, m.eip = BitVec.ofNat 32 e_entry → m.mem = mem' →
        m.cr0 &&& CR0_PG = 0 →
      ∃ m' frames arg infos line s' outbs, m.run 11 = some m' ∧ m'.eip = s.i386_init ∧
        i386Init build tf stack eipinfo depth seen keys (initStack m' room) st =
          some (.waiting line.length s') ∧
        frames.map Frame.site =
          innerCalls build.sites 5 ++ [(build.first, 5), (spin s, arg)] ∧
        List.Forall₂ (Describes build.image) frames infos ∧
        (run (respond (Kern.MonitorCommands.entries τ build.sym)) [] keys).2 = .waiting line ∧
        s'.console.outbs = st.outbs ++ outbs ∧
        u.after outbs = Uart.configured (u.sent ++
          ((initText build (initialized seen st).1 frames infos).map ofChar ++
            (opening ++
              (run (respond (Kern.MonitorCommands.entries τ build.sym)) [] keys).1)).flatMap
                portBytes) := by
  obtain ⟨e_entry, mem', hboot, hrun⟩ := boot_starts_kernel hlinked hfile mem
  refine ⟨e_entry, mem', hboot, fun m heip hmem hpaging => ?_⟩
  obtain ⟨m', hsteps, hstarted⟩ := hrun m heip hmem hpaging
  obtain ⟨frame, hspin, hrunnable⟩ := runnable_started hlinked hprovided hstarted
  obtain ⟨called, infos, line, s', outbs, hinit, hsites, hinfos, hline, houtbs, htransmits⟩ :=
    i386Init_transmits build tf stack eipinfo seen hkeys hrunnable st u
  refine ⟨m', called ++ [frame], frame.args.headD 0, infos, line, s', outbs, hsteps, hstarted.eip,
    hinit, ?_, hinfos, hline, houtbs, htransmits⟩
  rw [List.map_append, hsites, List.map_singleton, Frame.site, hspin, List.append_assoc]
  rfl

end JOSKernel.Boot.KernelSession
