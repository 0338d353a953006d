import JOSKernel.Boot.Main
import JOSKernel.General.BoundedLoop
import Mathlib.Data.List.Nodup

/-!
# Reading a segment (`readseg` in `boot/main.c`)

The loop of `readseg` is followed call by call.  Below the last sector of the
address space it calls `readsect` for each sector of the range, and each call
writes the number of its sector to the ports of the disk.  A range that ends in
the last sector is never done: the address goes on at zero.
-/

namespace JOSKernel.Boot.ReadSegment

open JOSKernel.General.MachineInt
open JOSKernel.General.ByteMemory
open JOSKernel.General.BoundedLoop
open JOSKernel.Boot.Main

/-! ## The ports of the disk -/

/-- What `readsect` writes to the ports before it reads the sector. -/
def sectorOutbs (offset : Nat) : List (Nat × Byte) :=
  [(0x1F2, 1), -- count = 1
    (0x1F3, BitVec.ofNat 8 offset),
    (0x1F4, BitVec.ofNat 8 (offset / 256)),
    (0x1F5, BitVec.ofNat 8 (offset / 65536)),
    (0x1F6, BitVec.ofNat 8 (offset / 16777216) ||| 0xE0),
    (0x1F7, 0x20)] -- cmd 0x20 - read sectors

/-- The last byte written to a port. -/
def register (port : Nat) (outbs : List (Nat × Byte)) : Byte :=
  outbs.foldl (fun value out => if out.1 = port then out.2 else value) 0

/-- The sector that the disk is asked for. -/
def addressed (outbs : List (Nat × Byte)) : Nat :=
  sectorAddress (register 0x1F3 outbs) (register 0x1F4 outbs) (register 0x1F5 outbs)
    (register 0x1F6 outbs)

/-- The disk returns the sector that it is asked for. -/
theorem readsect_addressed (disk : Disk) (dst offset : Nat) (m : Memory) :
    readsect disk dst offset m = overlay m dst SECTSIZE (disk (addressed (sectorOutbs offset))) := by
  simp [readsect, addressed, register, sectorOutbs]

/-- A sector number of 28 bits gets through. -/
theorem addressed_sectorOutbs {offset : Nat} (h : offset < 268435456) :
    addressed (sectorOutbs offset) = offset := by
  have haddressed : addressed (sectorOutbs offset) = sectorAddress (BitVec.ofNat 8 offset)
      (BitVec.ofNat 8 (offset / 256)) (BitVec.ofNat 8 (offset / 65536))
      (BitVec.ofNat 8 (offset / 16777216) ||| 0xE0) := by
    simp [addressed, register, sectorOutbs]
  rw [haddressed, sectorAddress_eq h]

def roundDown (a : Nat) : Nat := a / SECTSIZE * SECTSIZE

def roundUp (a : Nat) : Nat := (a + (SECTSIZE - 1)) / SECTSIZE * SECTSIZE

/-! ## The calls of `readsect` -/

/-- The arguments of one call. -/
structure SectorCall where
  dst : Nat
  offset : Nat

/-- The variables of the loop, and what `readsect` works on. -/
structure Reader (σ : Type) where
  pa : Nat
  offset : Nat
  work : σ

def Reader.below {σ : Type} (endPa : Nat) (r : Reader σ) : Bool := decide (r.pa < endPa)

def Reader.round {σ : Type} (readsect : Nat → Nat → σ → σ) (r : Reader σ) : Reader σ where
  pa := (r.pa + SECTSIZE) % 4294967296
  offset := (r.offset + 1) % 4294967296
  work := readsect r.pa r.offset r.work

/-- The loop of `readseg` over any `readsect`. -/
def readsegWith {σ : Type} (readsect : Nat → Nat → σ → σ) (fuel pa count offset : Nat) (work : σ) :
    Option σ :=
  let endPa := (pa + count) % 4294967296
  (whileLoop (Reader.below endPa) (Reader.round readsect) fuel
    ⟨roundDown pa, offset / SECTSIZE + 1, work⟩).map Reader.work

/-- A `readsect` that only takes down its arguments. -/
def logCall (dst offset : Nat) (calls : List SectorCall) : List SectorCall :=
  calls ++ [⟨dst, offset⟩]

/-- The calls of `readsect`, in their order. -/
def readsegCalls (fuel pa count offset : Nat) : Option (List SectorCall) :=
  readsegWith logCall fuel pa count offset []

def runCalls (disk : Disk) (calls : List SectorCall) (m : Memory) : Memory :=
  calls.foldl (fun m call => readsect disk call.dst call.offset m) m

theorem readsegLoop_while (disk : Disk) (endPa fuel pa offset : Nat) (m : Memory) :
    readsegLoop disk endPa fuel pa offset m =
      (whileLoop (Reader.below endPa) (Reader.round (readsect disk)) fuel ⟨pa, offset, m⟩).map
        Reader.work := by
  induction fuel generalizing pa offset m with
  | zero => rfl
  | succ fuel ih =>
      rw [readsegLoop, whileLoop, Reader.below, ih]
      by_cases hlt : pa < endPa
      · simp only [hlt, if_true, decide_true]
        rfl
      · simp only [hlt, if_false, decide_false, Bool.false_eq_true, Option.map_some]

theorem readseg_with (disk : Disk) (pa count offset : Nat) (m : Memory) :
    readseg disk pa count offset m = readsegWith (readsect disk) 8388609 pa count offset m :=
  readsegLoop_while disk _ _ _ _ m

/-- The calls taken down so far, performed on `m`. -/
def Reader.perform (disk : Disk) (m : Memory) (r : Reader (List SectorCall)) : Reader Memory where
  pa := r.pa
  offset := r.offset
  work := runCalls disk r.work m

theorem Reader.round_perform (disk : Disk) (m : Memory) (r : Reader (List SectorCall)) :
    (r.perform disk m).round (readsect disk) = (r.round logCall).perform disk m := by
  simp [Reader.round, Reader.perform, logCall, runCalls]

/-- The memory comes from the calls. -/
theorem readseg_calls (disk : Disk) (pa count offset : Nat) (m : Memory) :
    readseg disk pa count offset m =
      (readsegCalls 8388609 pa count offset).map fun calls => runCalls disk calls m := by
  have hperform := whileLoop_map (f := Reader.perform disk m)
    (fun r => (rfl : (r.perform disk m).below ((pa + count) % 4294967296) = r.below _))
    (Reader.round_perform disk m) 8388609 ⟨roundDown pa, offset / SECTSIZE + 1, []⟩
  rw [readseg_with, readsegCalls, readsegWith, readsegWith, Option.map_map]
  refine (congrArg (Option.map Reader.work) hperform).trans ?_
  rw [Option.map_map]
  rfl

/-! ## Below the last sector -/

/-- Calls for consecutive sectors. -/
def callsFrom (pa offset n : Nat) : List SectorCall :=
  (List.range n).map fun i => ⟨pa + i * SECTSIZE, offset + i⟩

theorem round_iterate {pa offset n : Nat} (hpa : pa + n * SECTSIZE < 4294967296)
    (hoffset : offset + n < 4294967296) :
    (Reader.round logCall)^[n] ⟨pa, offset, []⟩ =
      ⟨pa + n * SECTSIZE, offset + n, callsFrom pa offset n⟩ := by
  induction n with
  | zero => simp [callsFrom]
  | succ n ih =>
      rw [Nat.succ_mul, ← Nat.add_assoc] at hpa
      have hnext : (pa + n * SECTSIZE + SECTSIZE) % 4294967296 = pa + (n + 1) * SECTSIZE := by
        rw [Nat.mod_eq_of_lt hpa, Nat.succ_mul, Nat.add_assoc]
      have hsector : (offset + n + 1) % 4294967296 = offset + (n + 1) := Nat.mod_eq_of_lt hoffset
      have hbefore := ih (Nat.lt_of_le_of_lt (Nat.le_add_right _ _) hpa) (by omega)
      rw [Function.iterate_succ_apply', hbefore, Reader.round, hnext, hsector, callsFrom, callsFrom,
        List.range_succ, List.map_append]
      rfl

/-- The sectors that the range reaches into. -/
def sectors (pa count : Nat) : Nat :=
  (pa + count - roundDown pa + (SECTSIZE - 1)) / SECTSIZE

theorem roundDown_sectors (pa count : Nat) :
    roundDown pa + sectors pa count * SECTSIZE = roundUp (pa + count) := by
  have hcount : pa / SECTSIZE + sectors pa count = (pa + count + (SECTSIZE - 1)) / SECTSIZE := by
    simp only [sectors, roundDown, SECTSIZE]
    omega
  rw [roundDown, roundUp, ← hcount, Nat.add_mul]

theorem roundUp_le {a : Nat} (h : a ≤ 4294967296 - SECTSIZE) : roundUp a ≤ 4294967296 - SECTSIZE := by
  simp only [roundUp, SECTSIZE] at h ⊢
  omega

/-- A sector inside the range starts before its end. -/
theorem lt_sectors_iff (pa count i : Nat) :
    i < sectors pa count ↔ roundDown pa + i * SECTSIZE < pa + count := by
  simp only [sectors, roundDown, SECTSIZE]
  omega

theorem sectors_le {pa count : Nat} (hend : pa + count ≤ 4294967296 - SECTSIZE) :
    sectors pa count < 8388608 := by
  simp only [sectors, SECTSIZE] at hend ⊢
  omega

theorem readsegCalls_below {fuel pa count offset : Nat} (hend : pa + count ≤ 4294967296 - SECTSIZE)
    (hoffset : offset < 4294967296) (hfuel : sectors pa count < fuel) :
    readsegCalls fuel pa count offset =
      some (callsFrom (roundDown pa) (offset / SECTSIZE + 1) (sectors pa count)) := by
  have hlast : roundDown pa + sectors pa count * SECTSIZE < 4294967296 := by
    rw [roundDown_sectors]
    exact Nat.lt_of_le_of_lt (roundUp_le hend) (by decide)
  have hcount := sectors_le hend
  have hfirst : offset / SECTSIZE < 8388608 := by
    rw [SECTSIZE]
    omega
  have hmod : (pa + count) % 4294967296 = pa + count :=
    Nat.mod_eq_of_lt (Nat.lt_of_le_of_lt hend (by decide))
  have hround : ∀ i, i ≤ sectors pa count →
      (Reader.round logCall)^[i] ⟨roundDown pa, offset / SECTSIZE + 1, []⟩ =
        ⟨roundDown pa + i * SECTSIZE, offset / SECTSIZE + 1 + i,
          callsFrom (roundDown pa) (offset / SECTSIZE + 1) i⟩ := by
    intro i hi
    have hle := Nat.mul_le_mul_right SECTSIZE hi
    exact round_iterate (Nat.lt_of_le_of_lt (Nat.add_le_add_left hle _) hlast) (by omega)
  rw [readsegCalls, readsegWith, hmod, whileLoop_ends ?_ ?_ hfuel, hround _ (Nat.le_refl _)]
  · rfl
  · intro i hi
    rw [hround i (Nat.le_of_lt hi)]
    exact decide_eq_true ((lt_sectors_iff pa count i).mp hi)
  · rw [hround _ (Nat.le_refl _)]
    exact decide_eq_false fun hlt => Nat.lt_irrefl _ ((lt_sectors_iff pa count _).mpr hlt)

/-! ## The segment in memory -/

/-- The range holds the bytes of the image, and only the sectors that it
reaches into have been written, each from the place that its call named. -/
structure Reads (disk : Disk) (pa count offset : Nat) (calls : List SectorCall) (m m' : Memory) :
    Prop where
  bytes : ∀ j < count, m' (pa + j) = image disk (offset + j)
  kept : ∀ a, a < roundDown pa ∨ roundUp (pa + count) ≤ a → m' a = m a
  performed : m' = runCalls disk calls m
  inside : ∀ call ∈ calls, roundDown pa ≤ call.dst ∧ call.dst + SECTSIZE ≤ roundUp (pa + count)
  named : ∀ call ∈ calls,
    call.offset < 268435456 ∧ addressed (sectorOutbs call.offset) = call.offset

theorem callsFrom_inside {pa count offset : Nat} {call : SectorCall}
    (h : call ∈ callsFrom (roundDown pa) offset (sectors pa count)) :
    roundDown pa ≤ call.dst ∧ call.dst + SECTSIZE ≤ roundUp (pa + count) := by
  obtain ⟨i, hi, rfl⟩ := List.mem_map.mp h
  have hle := Nat.mul_le_mul_right SECTSIZE (Nat.succ_le_of_lt (List.mem_range.mp hi))
  rw [Nat.succ_mul] at hle
  rw [← roundDown_sectors, Nat.add_assoc]
  exact ⟨Nat.le_add_right _ _, Nat.add_le_add_left hle _⟩

theorem callsFrom_offset {pa offset n : Nat} {call : SectorCall} (h : call ∈ callsFrom pa offset n) :
    call.offset < offset + n := by
  obtain ⟨i, hi, rfl⟩ := List.mem_map.mp h
  rw [List.mem_range] at hi
  exact Nat.add_lt_add_left hi offset

/-- Where address and image offset agree within a sector, `readseg` brings the
range. -/
theorem readseg_reads (disk : Disk) {pa count offset : Nat}
    (hcongr : pa % SECTSIZE = offset % SECTSIZE) (hend : pa + count ≤ 4294967296 - SECTSIZE)
    (hoffset : offset < 4294967296) (m : Memory) :
    ∃ m' calls, readseg disk pa count offset m = some m' ∧
      readsegCalls 8388609 pa count offset = some calls ∧ Reads disk pa count offset calls m m' := by
  have hcount := sectors_le hend
  have hcalls := readsegCalls_below hend hoffset (show sectors pa count < 8388609 by omega)
  have hread := readseg_below disk ⟨offset, pa, count, count⟩ hend hoffset m
  refine ⟨_, _, hread, hcalls, ?_, ?_, ?_, fun call hcall => callsFrom_inside hcall, ?_⟩
  · intro j hj
    obtain ⟨⟨hlow, hhigh⟩, hdata⟩ := @Proghdr.block_own ⟨offset, pa, count, count⟩ (image disk) j hj
      hcongr
    exact (if_pos ⟨hlow, hhigh⟩).trans hdata
  · intro a ha
    rw [← roundDown_sectors] at ha
    exact overlay_outside _ _ ha
  · have hrun := readseg_calls disk pa count offset m
    rw [hcalls] at hrun
    exact Option.some.inj (hread.symm.trans hrun)
  · intro call hcall
    have hlt := callsFrom_offset hcall
    have hsector : call.offset < 268435456 := by
      rw [SECTSIZE] at hlt
      omega
    exact ⟨hsector, addressed_sectorOutbs hsector⟩

/-- A disk on which all sectors are different. -/
def numbered : Disk := fun sector i => BitVec.ofNat 8 (7 * sector + i)

/-- A range that starts in one sector and ends three sectors further. -/
theorem readseg_reads_unaligned :
    ∃ m', readseg numbered 0x1001F0 0x430 0x11F0 (fun _ => 0) = some m' ∧
      readsegCalls 8388609 0x1001F0 0x430 0x11F0 =
        some [⟨0x100000, 9⟩, ⟨0x100200, 10⟩, ⟨0x100400, 11⟩, ⟨0x100600, 12⟩] ∧
      Reads numbered 0x1001F0 0x430 0x11F0
        [⟨0x100000, 9⟩, ⟨0x100200, 10⟩, ⟨0x100400, 11⟩, ⟨0x100600, 12⟩] (fun _ => 0) m' := by
  have hcalls : readsegCalls 8388609 0x1001F0 0x430 0x11F0 =
      some [⟨0x100000, 9⟩, ⟨0x100200, 10⟩, ⟨0x100400, 11⟩, ⟨0x100600, 12⟩] :=
    readsegCalls_below (by decide) (by decide) (by decide)
  obtain ⟨m', calls, hread, hlist, hreads⟩ := @readseg_reads numbered 0x1001F0 0x430 0x11F0
    (by decide) (by decide) (by decide) fun _ => 0
  rw [hcalls, Option.some.injEq] at hlist
  subst hlist
  exact ⟨m', hread, hcalls, hreads⟩

/-! ## When the loop ends -/

/-- The loop ends, and there is one call for each sector that starts in the
range or around its first byte. -/
def CallsEachOnce (pa count offset : Nat) : Prop :=
  ∃ fuel calls, readsegCalls fuel pa count offset = some calls ∧
    (calls.map SectorCall.dst).Nodup ∧
      ∀ a, a ∈ calls.map SectorCall.dst ↔ SECTSIZE ∣ a ∧ roundDown pa ≤ a ∧ a < pa + count

theorem callsEachOnce_below {pa count offset : Nat} (hend : pa + count ≤ 4294967296 - SECTSIZE)
    (hoffset : offset < 4294967296) : CallsEachOnce pa count offset := by
  refine ⟨_, _, readsegCalls_below hend hoffset (Nat.lt_succ_self _), ?_, ?_⟩
  · rw [callsFrom, List.map_map]
    refine List.Nodup.map ?_ List.nodup_range
    intro i j hij
    simp only [Function.comp_apply, SECTSIZE] at hij
    omega
  · intro a
    simp only [callsFrom, List.map_map, List.mem_map, List.mem_range, Function.comp_apply]
    constructor
    · rintro ⟨i, hi, rfl⟩
      refine ⟨?_, Nat.le_add_right _ _, (lt_sectors_iff pa count i).mp hi⟩
      exact Nat.dvd_add (Nat.dvd_mul_left _ _) (Nat.dvd_mul_left _ _)
    · rintro ⟨⟨q, rfl⟩, hlow, hhigh⟩
      have hplace : roundDown pa + (q - pa / SECTSIZE) * SECTSIZE = SECTSIZE * q := by
        simp only [roundDown, SECTSIZE] at hlow ⊢
        omega
      refine ⟨q - pa / SECTSIZE, ?_, hplace⟩
      rw [lt_sectors_iff, hplace]
      exact hhigh

/-- An address that is a multiple of the sector size never gets behind an end
in the last sector. -/
theorem readsegCalls_endless {pa count : Nat} (hend : 4294967296 - SECTSIZE < pa + count)
    (hlt : pa + count < 4294967296) (fuel offset : Nat) :
    readsegCalls fuel pa count offset = none := by
  have hmod : (pa + count) % 4294967296 = pa + count := Nat.mod_eq_of_lt hlt
  rw [readsegCalls, readsegWith, hmod, Option.map_eq_none_iff]
  refine @whileLoop_endless _ _ _ (fun r => SECTSIZE ∣ r.pa ∧ r.pa < 4294967296) ?_ ?_ _ ?_ fuel
  · rintro r ⟨hdvd, hpa⟩
    simp only [Reader.below, decide_eq_true_eq, SECTSIZE] at hend hdvd ⊢
    omega
  · rintro r ⟨hdvd, hpa⟩
    simp only [Reader.round, SECTSIZE] at hdvd ⊢
    omega
  · refine ⟨Nat.dvd_mul_left _ _, Nat.lt_of_le_of_lt (Nat.div_mul_le_self _ _) ?_⟩
    exact Nat.lt_of_le_of_lt (Nat.le_add_right _ _) hlt

/-- The loop makes its calls and ends exactly below the last sector. -/
theorem callsEachOnce_iff {pa count offset : Nat} (hlt : pa + count < 4294967296)
    (hoffset : offset < 4294967296) :
    CallsEachOnce pa count offset ↔ pa + count ≤ 4294967296 - SECTSIZE := by
  constructor
  · rintro ⟨fuel, calls, hcalls, _⟩
    by_contra hend
    cases hcalls.symm.trans (readsegCalls_endless (Nat.lt_of_not_le hend) hlt fuel offset)
  · intro hend
    exact callsEachOnce_below hend hoffset

theorem callsEachOnce_page : CallsEachOnce 0x10000 0x1000 0 ↔
    0x10000 + 0x1000 ≤ 4294967296 - SECTSIZE :=
  callsEachOnce_iff (by decide) (by decide)

/-- One byte in the last sector keeps the loop going for ever. -/
theorem readseg_last_sector :
    ¬ ∀ pa count offset : Nat, pa + count < 4294967296 → offset < 4294967296 →
      CallsEachOnce pa count offset := by
  intro hall
  obtain ⟨fuel, calls, hcalls, _⟩ := hall 0xFFFFFE00 1 0x1000 (by decide) (by decide)
  cases hcalls.symm.trans (readsegCalls_endless (by decide) (by decide) fuel 0x1000)

end JOSKernel.Boot.ReadSegment
