import JOSKernel.General.ByteMemory
import Mathlib.Algebra.Group.Nat.Defs

/-!
# Segments and gates (`inc/mmu.h`)

A segment descriptor scatters its base and its limit over eight bytes.  The
macros that take them apart, for the assembler and for C, and what the processor
makes of the bytes.
-/

namespace JOSKernel.Boot.Segments

open JOSKernel.General.ByteMemory
open JOSKernel.General.MachineInt

/-! ## Descriptors -/

/-- `struct Segdesc` -/
structure Segdesc where
  sd_lim_15_0 : BitVec 16
  sd_base_15_0 : BitVec 16
  sd_base_23_16 : BitVec 8
  sd_type : BitVec 4
  sd_s : BitVec 1
  sd_dpl : BitVec 2
  sd_p : BitVec 1
  sd_lim_19_16 : BitVec 4
  sd_avl : BitVec 1
  sd_rsv1 : BitVec 1
  sd_db : BitVec 1
  sd_g : BitVec 1
  sd_base_31_24 : BitVec 8

/-- The members in memory, each behind the one before, from the low bits up. -/
def Segdesc.bytes (d : Segdesc) : List Byte :=
  halfBytes d.sd_lim_15_0 ++ halfBytes d.sd_base_15_0 ++
    [d.sd_base_23_16,
      d.sd_p ++ d.sd_dpl ++ d.sd_s ++ d.sd_type,
      d.sd_g ++ d.sd_db ++ d.sd_rsv1 ++ d.sd_avl ++ d.sd_lim_19_16,
      d.sd_base_31_24]

def STA_X : BitVec 4 := 0x8
def STA_E : BitVec 4 := 0x4
def STA_W : BitVec 4 := 0x2
def STA_R : BitVec 4 := 0x2

/-- Normal segment -/
def SEG (type : BitVec 4) (base lim : Word) (dpl : BitVec 2) : Segdesc :=
  ⟨(lim >>> 12 &&& 0xFFFF).setWidth 16, (base &&& 0xFFFF).setWidth 16,
    (base >>> 16 &&& 0xFF).setWidth 8, type, 1, dpl, 1, (lim >>> 28).setWidth 4, 0, 0, 1, 1,
    (base >>> 24).setWidth 8⟩

def SEG16 (type : BitVec 4) (base lim : Word) (dpl : BitVec 2) : Segdesc :=
  ⟨(lim &&& 0xFFFF).setWidth 16, (base &&& 0xFFFF).setWidth 16,
    (base >>> 16 &&& 0xFF).setWidth 8, type, 1, dpl, 1, (lim >>> 16).setWidth 4, 0, 0, 1, 0,
    (base >>> 24).setWidth 8⟩

/-- The null segment for the assembler. -/
def asmSEG_NULL : List Byte := [0, 0, 0, 0, 0, 0, 0, 0]

/-- The normal segment for the assembler. -/
def asmSEG (type : Byte) (base lim : Word) : List Byte :=
  halfBytes ((lim >>> 12 &&& 0xFFFF).setWidth 16) ++ halfBytes ((base &&& 0xFFFF).setWidth 16) ++
    [(base >>> 16 &&& 0xFF).setWidth 8, 0x90 ||| type,
      ((0xC0 : Word) ||| (lim >>> 28 &&& (0xF : Word))).setWidth 8,
      (base >>> 24 &&& 0xFF).setWidth 8]

/-! ## What the processor makes of them -/

/-- The contents of a descriptor, with the limit in bytes. -/
structure Descriptor where
  base : Word
  limit : Word
  type : BitVec 4
  application : Bool
  dpl : BitVec 2
  present : Bool
  big : Bool
  deriving DecidableEq

/-- The limit counts bytes or whole pages. -/
def scaled (pages : Bool) (lim : BitVec 20) : Word :=
  if pages then lim.setWidth 32 <<< 12 ||| 0xFFF else lim.setWidth 32

def Descriptor.read (b : Nat → Byte) : Descriptor where
  base := b 7 ++ b 4 ++ b 3 ++ b 2
  limit := scaled ((b 6).getLsbD 7) ((b 6).extractLsb' 0 4 ++ b 1 ++ b 0)
  type := (b 5).extractLsb' 0 4
  application := (b 5).getLsbD 4
  dpl := (b 5).extractLsb' 5 2
  present := (b 5).getLsbD 7
  big := (b 6).getLsbD 6

theorem Descriptor.read_congr {b b' : Nat → Byte} (h : ∀ k < 8, b k = b' k) :
    Descriptor.read b = Descriptor.read b' := by
  simp only [Descriptor.read, h 0 (by decide), h 1 (by decide), h 2 (by decide), h 3 (by decide),
    h 4 (by decide), h 5 (by decide), h 6 (by decide), h 7 (by decide)]

/-- Only data segments expand down. -/
def Descriptor.expandsDown (d : Descriptor) : Bool := d.type &&& 0xC == 0x4

/-- Whether an offset lies in the segment. -/
def Descriptor.contains (d : Descriptor) (off : Word) : Bool :=
  if d.expandsDown then d.limit.toNat < off.toNat && (d.big || off.toNat < 65536)
  else off.toNat ≤ d.limit.toNat

/-- The linear address of an offset. -/
def Descriptor.linear (d : Descriptor) (off : Word) : Option Word :=
  if d.contains off then some (d.base + off) else none

def readBytes (bs : List Byte) : Descriptor := Descriptor.read fun k => bs.getD k 0

/-! ## The macros -/

theorem append_toNat {k n : Nat} (x : BitVec k) (y : BitVec n) :
    (x ++ y).toNat = x.toNat * 2 ^ n + y.toNat := by
  rw [BitVec.toNat_append, ← Nat.shiftLeft_add_eq_or_of_lt y.isLt, Nat.shiftLeft_eq]

theorem and_mask (x : Word) (n : Nat) (hn : n ≤ 32) :
    (x &&& BitVec.ofNat 32 (2 ^ n - 1)).setWidth n = x.setWidth n := by
  apply BitVec.eq_of_toNat_eq
  have hmask : (2 ^ n - 1) % 2 ^ 32 = 2 ^ n - 1 := by
    apply Nat.mod_eq_of_lt
    exact Nat.lt_of_lt_of_le (Nat.sub_lt (Nat.two_pow_pos n) Nat.one_pos)
      (Nat.pow_le_pow_right (by decide) hn)
  rw [BitVec.toNat_setWidth, BitVec.toNat_setWidth, BitVec.toNat_and, BitVec.toNat_ofNat, hmask,
    Nat.and_two_pow_sub_one_eq_mod, Nat.mod_mod]

theorem low_half (x : Word) : (x &&& 0xFFFF).setWidth 16 = x.setWidth 16 :=
  and_mask x 16 (by decide)

theorem low_byte (x : Word) : (x &&& 0xFF).setWidth 8 = x.setWidth 8 := and_mask x 8 (by decide)

/-- The base comes together again. -/
theorem base_parts (base : Word) :
    ((base >>> 24).setWidth 8 : Byte) ++ ((base >>> 16 &&& 0xFF).setWidth 8 : Byte) ++
      ((base &&& 0xFFFF).setWidth 16 : BitVec 16) = base := by
  have hbase := base.isLt
  rw [low_half, low_byte]
  apply BitVec.eq_of_toNat_eq
  simp only [append_toNat, BitVec.toNat_setWidth, BitVec.toNat_ushiftRight,
    Nat.shiftRight_eq_div_pow, Nat.reducePow] at hbase ⊢
  omega

theorem half_parts (v : BitVec 16) :
    BitVec.ofNat 8 (v.toNat / 256) ++ BitVec.ofNat 8 v.toNat = v := by
  have hv := v.isLt
  apply BitVec.eq_of_toNat_eq
  simp only [append_toNat, BitVec.toNat_ofNat, Nat.reducePow] at hv ⊢
  omega

/-- What stands in front of a half stays there. -/
theorem append_half {n : Nat} (x : BitVec n) (v : BitVec 16) :
    ((x ++ BitVec.ofNat 8 (v.toNat / 256) : BitVec (n + 8)) ++ BitVec.ofNat 8 v.toNat).toNat =
      (x ++ v).toNat := by
  have hv : (BitVec.ofNat 8 (v.toNat / 256)).toNat * 2 ^ 8 + (BitVec.ofNat 8 v.toNat).toNat =
      v.toNat := by
    rw [← append_toNat, half_parts]
  rw [append_toNat, append_toNat, append_toNat, Nat.add_mul, Nat.mul_assoc, ← Nat.pow_add,
    Nat.add_assoc, hv]

theorem bit_eq : ∀ x : BitVec 1, x.getLsbD 0 = (x == 1) := by decide

/-- The byte that segments and gates have in common. -/
theorem access_parts (p : BitVec 1) (dpl : BitVec 2) (s : BitVec 1) (type : BitVec 4) :
    (p ++ dpl ++ s ++ type).extractLsb' 0 4 = type ∧
      (p ++ dpl ++ s ++ type).getLsbD 4 = (s == 1) ∧
      (p ++ dpl ++ s ++ type).extractLsb' 5 2 = dpl ∧
      (p ++ dpl ++ s ++ type).getLsbD 7 = (p == 1) := by
  have htype := type.isLt
  have hs := s.isLt
  have hdpl := dpl.isLt
  refine ⟨?_, ?_, ?_, ?_⟩
  · apply BitVec.eq_of_toNat_eq
    simp only [append_toNat, BitVec.extractLsb'_toNat, Nat.shiftRight_eq_div_pow,
      Nat.reducePow] at htype ⊢
    omega
  · simp only [BitVec.getLsbD_append]
    exact bit_eq s
  · apply BitVec.eq_of_toNat_eq
    simp only [append_toNat, BitVec.extractLsb'_toNat, Nat.shiftRight_eq_div_pow,
      Nat.reducePow] at htype hs hdpl ⊢
    omega
  · simp only [BitVec.getLsbD_append]
    exact bit_eq p

/-- The byte with the flags of a segment and the top of its limit. -/
theorem flags_parts (g db rsv avl : BitVec 1) (high : BitVec 4) :
    (g ++ db ++ rsv ++ avl ++ high).extractLsb' 0 4 = high ∧
      (g ++ db ++ rsv ++ avl ++ high).getLsbD 6 = (db == 1) ∧
      (g ++ db ++ rsv ++ avl ++ high).getLsbD 7 = (g == 1) := by
  have hhigh := high.isLt
  refine ⟨?_, ?_, ?_⟩
  · apply BitVec.eq_of_toNat_eq
    simp only [append_toNat, BitVec.extractLsb'_toNat, Nat.shiftRight_eq_div_pow,
      Nat.reducePow] at hhigh ⊢
    omega
  · simp only [BitVec.getLsbD_append]
    exact bit_eq db
  · simp only [BitVec.getLsbD_append]
    exact bit_eq g

/-- A descriptor is read as what its members say. -/
theorem readBytes_bytes (d : Segdesc) :
    readBytes d.bytes =
      { base := d.sd_base_31_24 ++ d.sd_base_23_16 ++ d.sd_base_15_0
        limit := scaled (d.sd_g == 1) (d.sd_lim_19_16 ++ d.sd_lim_15_0)
        type := d.sd_type
        application := d.sd_s == 1
        dpl := d.sd_dpl
        present := d.sd_p == 1
        big := d.sd_db == 1 } := by
  obtain ⟨htype, happlication, hdpl, hpresent⟩ :=
    access_parts d.sd_p d.sd_dpl d.sd_s d.sd_type
  obtain ⟨hhigh, hbig, hgranular⟩ :=
    flags_parts d.sd_g d.sd_db d.sd_rsv1 d.sd_avl d.sd_lim_19_16
  have hbase : d.sd_base_31_24 ++ d.sd_base_23_16 ++ BitVec.ofNat 8 (d.sd_base_15_0.toNat / 256) ++
      BitVec.ofNat 8 d.sd_base_15_0.toNat =
        d.sd_base_31_24 ++ d.sd_base_23_16 ++ d.sd_base_15_0 :=
    BitVec.eq_of_toNat_eq (append_half _ _)
  have hlimit : d.sd_lim_19_16 ++ BitVec.ofNat 8 (d.sd_lim_15_0.toNat / 256) ++
      BitVec.ofNat 8 d.sd_lim_15_0.toNat = d.sd_lim_19_16 ++ d.sd_lim_15_0 :=
    BitVec.eq_of_toNat_eq (append_half _ _)
  have hread : readBytes d.bytes =
      { base := d.sd_base_31_24 ++ d.sd_base_23_16 ++
          BitVec.ofNat 8 (d.sd_base_15_0.toNat / 256) ++ BitVec.ofNat 8 d.sd_base_15_0.toNat
        limit := scaled ((d.sd_g ++ d.sd_db ++ d.sd_rsv1 ++ d.sd_avl ++ d.sd_lim_19_16).getLsbD 7)
          ((d.sd_g ++ d.sd_db ++ d.sd_rsv1 ++ d.sd_avl ++ d.sd_lim_19_16).extractLsb' 0 4 ++
            BitVec.ofNat 8 (d.sd_lim_15_0.toNat / 256) ++ BitVec.ofNat 8 d.sd_lim_15_0.toNat)
        type := (d.sd_p ++ d.sd_dpl ++ d.sd_s ++ d.sd_type).extractLsb' 0 4
        application := (d.sd_p ++ d.sd_dpl ++ d.sd_s ++ d.sd_type).getLsbD 4
        dpl := (d.sd_p ++ d.sd_dpl ++ d.sd_s ++ d.sd_type).extractLsb' 5 2
        present := (d.sd_p ++ d.sd_dpl ++ d.sd_s ++ d.sd_type).getLsbD 7
        big := (d.sd_g ++ d.sd_db ++ d.sd_rsv1 ++ d.sd_avl ++ d.sd_lim_19_16).getLsbD 6 } := rfl
  rw [hread, hbase, hgranular, hhigh, hlimit, htype, happlication, hdpl, hpresent, hbig]

/-- A limit in pages is rounded up to the end of its page. -/
theorem scaled_pages (lim : Word) :
    scaled true (((lim >>> 28).setWidth 4 : BitVec 4) ++
      ((lim >>> 12 &&& 0xFFFF).setWidth 16 : BitVec 16)) = lim ||| 0xFFF := by
  have hlim := lim.isLt
  have hparts : ((lim >>> 28).setWidth 4 : BitVec 4) ++
      ((lim >>> 12 &&& 0xFFFF).setWidth 16 : BitVec 16) = (lim >>> 12).setWidth 20 := by
    rw [low_half]
    apply BitVec.eq_of_toNat_eq
    simp only [append_toNat, BitVec.toNat_setWidth, BitVec.toNat_ushiftRight,
      Nat.shiftRight_eq_div_pow, Nat.reducePow] at hlim ⊢
    omega
  have hlow : ∀ i, (0xFFF : Word).getLsbD i = decide (i < 12) := by
    intro i
    rw [show (0xFFF : Word) = BitVec.ofNat 32 (2 ^ 12 - 1) from rfl, BitVec.getLsbD_ofNat,
      Nat.testBit_two_pow_sub_one]
    by_cases hi : i < 12
    · simp [hi, show i < 32 by omega]
    · simp [hi]
  rw [hparts, scaled, if_pos rfl]
  apply BitVec.eq_of_getLsbD_eq
  intro i hi
  simp only [BitVec.getLsbD_or, BitVec.getLsbD_shiftLeft, BitVec.getLsbD_setWidth,
    BitVec.getLsbD_ushiftRight, hlow]
  by_cases hi' : i < 12
  · simp [hi']
  · simp [hi', hi, show i - 12 < 20 by omega, show 12 + (i - 12) = i by omega,
      show i - 12 < 32 by omega]

/-- A limit in bytes keeps twenty bits. -/
theorem scaled_bytes (lim : Word) :
    scaled false (((lim >>> 16).setWidth 4 : BitVec 4) ++
      ((lim &&& 0xFFFF).setWidth 16 : BitVec 16)) = (lim.setWidth 20).setWidth 32 := by
  have hlim := lim.isLt
  rw [low_half, scaled, if_neg Bool.false_ne_true]
  apply BitVec.eq_of_toNat_eq
  simp only [append_toNat, BitVec.toNat_setWidth, BitVec.toNat_ushiftRight,
    Nat.shiftRight_eq_div_pow, Nat.reducePow] at hlim ⊢
  omega

theorem readBytes_SEG (type : BitVec 4) (base lim : Word) (dpl : BitVec 2) :
    readBytes (SEG type base lim dpl).bytes =
      ⟨base, lim ||| 0xFFF, type, true, dpl, true, true⟩ := by
  rw [readBytes_bytes]
  simp only [SEG, base_parts]
  rw [show ((1 : BitVec 1) == 1) = true from rfl, scaled_pages]

theorem readBytes_SEG16 (type : BitVec 4) (base lim : Word) (dpl : BitVec 2) :
    readBytes (SEG16 type base lim dpl).bytes =
      ⟨base, (lim.setWidth 20).setWidth 32, type, true, dpl, true, true⟩ := by
  rw [readBytes_bytes]
  simp only [SEG16, base_parts]
  rw [show ((1 : BitVec 1) == 1) = true from rfl, show ((0 : BitVec 1) == 1) = false from rfl,
    scaled_bytes]

/-- The assembler's segments are those of C at the highest privilege. -/
theorem asmSEG_eq (type : BitVec 4) (base lim : Word) :
    asmSEG (type.setWidth 8) base lim = (SEG type base lim 0).bytes := by
  have haccess : ∀ x : BitVec 4,
      (0x90 ||| x.setWidth 8 : Byte) = (1 : BitVec 1) ++ (0 : BitVec 2) ++ (1 : BitVec 1) ++ x := by
    decide
  have hflags : ∀ x : BitVec 4, (((0xC0 : Word) ||| x.setWidth 32).setWidth 8 : Byte) =
      (1 : BitVec 1) ++ (1 : BitVec 1) ++ (0 : BitVec 1) ++ (0 : BitVec 1) ++ x := by decide
  have hhigh : lim >>> 28 &&& (0xF : Word) = ((lim >>> 28).setWidth 4).setWidth 32 := by
    apply BitVec.eq_of_toNat_eq
    rw [BitVec.toNat_and, BitVec.toNat_setWidth, BitVec.toNat_setWidth,
      show (0xF : Word).toNat = 2 ^ 4 - 1 from rfl, Nat.and_two_pow_sub_one_eq_mod]
    exact (Nat.mod_eq_of_lt (Nat.lt_trans (Nat.mod_lt _ (by decide)) (by decide))).symm
  rw [asmSEG, haccess, hhigh, hflags, low_byte (base >>> 24)]
  rfl

/-- A segment that has the offsets up to `lim`, from `base` on. -/
def Covers (d : Segdesc) (base lim : Word) : Prop :=
  ∀ off : Word, (readBytes d.bytes).linear off =
    if off.toNat ≤ lim.toNat then some (base + off) else none

/-- A limit that covers another one covers it alone when they are equal. -/
theorem covers_iff {d : Segdesc} {base limit : Word} {type : BitVec 4} {dpl : BitVec 2}
    (htype : type &&& (STA_X ||| STA_E) ≠ STA_E)
    (hread : readBytes d.bytes = ⟨base, limit, type, true, dpl, true, true⟩) (lim : Word) :
    Covers d base lim ↔ limit = lim := by
  have hup : (type &&& 0xC == 0x4) = false := beq_eq_false_iff_ne.mpr htype
  have hlinear (off : Word) : (readBytes d.bytes).linear off =
      if off.toNat ≤ limit.toNat then some (base + off) else none := by
    simp only [hread, Descriptor.linear, Descriptor.contains, Descriptor.expandsDown, hup,
      Bool.false_eq_true, if_false, decide_eq_true_eq]
  constructor
  · intro h
    have hlim := (hlinear lim).symm.trans (h lim)
    have hlimit := (hlinear limit).symm.trans (h limit)
    rw [if_pos (Nat.le_refl _)] at hlim hlimit
    apply BitVec.eq_of_toNat_eq
    apply Nat.le_antisymm
    · by_contra hgt
      rw [if_neg hgt] at hlimit
      exact nomatch hlimit
    · by_contra hgt
      rw [if_neg hgt] at hlim
      exact nomatch hlim
  · rintro rfl off
    exact hlinear off

theorem or_low_eq_iff (lim : Word) : lim ||| 0xFFF = lim ↔ lim.toNat % 4096 = 4095 := by
  have hmod : lim &&& 0xFFF = 0xFFF ↔ lim.toNat % 4096 = 4095 := by
    have hlow : lim.toNat &&& 4095 = lim.toNat % 4096 :=
      Nat.and_two_pow_sub_one_eq_mod lim.toNat 12
    have hones : (0xFFF : Word).toNat = 4095 := rfl
    rw [← BitVec.toNat_inj, BitVec.toNat_and, hones, hlow]
  rw [← hmod, BitVec.eq_of_getLsbD_eq_iff, BitVec.eq_of_getLsbD_eq_iff]
  refine forall₂_congr fun i _ => ?_
  rw [BitVec.getLsbD_or, BitVec.getLsbD_and]
  cases lim.getLsbD i
  all_goals simp

/-- A segment in pages has exactly the offsets up to its limit when the limit is
the last byte of a page, one in bytes when it has twenty bits; and the assembler's
macro makes the same descriptors. -/
theorem segments_cover {type : BitVec 4} (htype : type &&& (STA_X ||| STA_E) ≠ STA_E)
    (base lim : Word) (dpl : BitVec 2) :
    (Covers (SEG type base lim dpl) base lim ↔ lim.toNat % 4096 = 4095) ∧
      (Covers (SEG16 type base lim dpl) base lim ↔ lim.toNat < 1048576) ∧
      asmSEG (type.setWidth 8) base lim = (SEG type base lim 0).bytes := by
  refine ⟨?_, ?_, asmSEG_eq type base lim⟩
  · rw [covers_iff htype (readBytes_SEG type base lim dpl), or_low_eq_iff]
  · rw [covers_iff htype (readBytes_SEG16 type base lim dpl)]
    have hlim := lim.isLt
    rw [← BitVec.toNat_inj, BitVec.toNat_setWidth, BitVec.toNat_setWidth]
    simp only [Nat.reducePow] at hlim ⊢
    omega

/-- The code segment of the boot loader. -/
theorem segments_cover_flat :
    (Covers (SEG (STA_X ||| STA_R) 0 0xFFFFFFFF 0) 0 0xFFFFFFFF ↔
        (0xFFFFFFFF : Word).toNat % 4096 = 4095) ∧
      (Covers (SEG16 (STA_X ||| STA_R) 0 0xFFFFFFFF 0) 0 0xFFFFFFFF ↔
        (0xFFFFFFFF : Word).toNat < 1048576) ∧
      asmSEG ((STA_X ||| STA_R).setWidth 8) 0 0xFFFFFFFF =
        (SEG (STA_X ||| STA_R) 0 0xFFFFFFFF 0).bytes :=
  segments_cover (by decide) 0 0xFFFFFFFF 0

/-! ## Gates -/

/-- `struct Gatedesc` -/
structure Gatedesc where
  gd_off_15_0 : BitVec 16
  gd_sel : BitVec 16
  gd_args : BitVec 5
  gd_rsv1 : BitVec 3
  gd_type : BitVec 4
  gd_s : BitVec 1
  gd_dpl : BitVec 2
  gd_p : BitVec 1
  gd_off_31_16 : BitVec 16

def Gatedesc.bytes (g : Gatedesc) : List Byte :=
  halfBytes g.gd_off_15_0 ++ halfBytes g.gd_sel ++
    [g.gd_rsv1 ++ g.gd_args, g.gd_p ++ g.gd_dpl ++ g.gd_s ++ g.gd_type] ++
    halfBytes g.gd_off_31_16

def STS_CG32 : BitVec 4 := 0xC
def STS_IG32 : BitVec 4 := 0xE
def STS_TG32 : BitVec 4 := 0xF

/-- Set up a normal interrupt/trap gate descriptor. -/
def SETGATE (gate : Gatedesc) (istrap : Bool) (sel : BitVec 16) (off : Word) (dpl : BitVec 2) :
    Gatedesc :=
  { gate with
    gd_off_15_0 := (off &&& 0xFFFF).setWidth 16
    gd_sel := sel
    gd_args := 0
    gd_rsv1 := 0
    gd_type := if istrap then STS_TG32 else STS_IG32
    gd_s := 0
    gd_dpl := dpl
    gd_p := 1
    gd_off_31_16 := (off >>> 16).setWidth 16 }

/-- Set up a call gate descriptor. -/
def SETCALLGATE (gate : Gatedesc) (sel : BitVec 16) (off : Word) (dpl : BitVec 2) : Gatedesc :=
  { gate with
    gd_off_15_0 := (off &&& 0xFFFF).setWidth 16
    gd_sel := sel
    gd_args := 0
    gd_rsv1 := 0
    gd_type := STS_CG32
    gd_s := 0
    gd_dpl := dpl
    gd_p := 1
    gd_off_31_16 := (off >>> 16).setWidth 16 }

/-- The contents of a gate, as the processor reads them. -/
structure Gate where
  sel : BitVec 16
  off : Word
  args : BitVec 5
  type : BitVec 4
  application : Bool
  dpl : BitVec 2
  present : Bool

def Gate.read (b : Nat → Byte) : Gate where
  sel := b 3 ++ b 2
  off := b 7 ++ b 6 ++ b 1 ++ b 0
  args := (b 4).extractLsb' 0 5
  type := (b 5).extractLsb' 0 4
  application := (b 5).getLsbD 4
  dpl := (b 5).extractLsb' 5 2
  present := (b 5).getLsbD 7

def readGate (bs : List Byte) : Gate := Gate.read fun k => bs.getD k 0

/-- Where an interrupt goes that comes in at privilege `cpl`, and whether
interrupts are still on there.  Types `0xE` and `0xF` are the interrupt and trap
gates of 32 bits.  Only an interrupt that a program asks for is checked against
the gate's privilege. -/
def Gate.interrupt (g : Gate) (cpl : BitVec 2) (software intr : Bool) :
    Option (BitVec 16 × Word × Bool) :=
  if g.present = true ∧ g.application = false ∧ (g.type = 0xE ∨ g.type = 0xF) ∧
      (software = true → cpl.toNat ≤ g.dpl.toNat) then
    some (g.sel, g.off, intr && g.type == 0xF)
  else none

/-- Where a far call goes that is made at privilege `cpl` through a selector with
the requested privilege `rpl`.  Type `0xC` is the call gate of 32 bits. -/
def Gate.call (g : Gate) (cpl rpl : BitVec 2) : Option (BitVec 16 × Word) :=
  if g.present = true ∧ g.application = false ∧ g.type = 0xC ∧
      cpl.toNat ≤ g.dpl.toNat ∧ rpl.toNat ≤ g.dpl.toNat then
    some (g.sel, g.off)
  else none

/-- A gate is read as what its members say. -/
theorem readGate_bytes (g : Gatedesc) :
    readGate g.bytes =
      { sel := g.gd_sel
        off := g.gd_off_31_16 ++ g.gd_off_15_0
        args := g.gd_args
        type := g.gd_type
        application := g.gd_s == 1
        dpl := g.gd_dpl
        present := g.gd_p == 1 } := by
  obtain ⟨htype, happlication, hdpl, hpresent⟩ :=
    access_parts g.gd_p g.gd_dpl g.gd_s g.gd_type
  have hargs : (g.gd_rsv1 ++ g.gd_args).extractLsb' 0 5 = g.gd_args := by
    have hlow := g.gd_args.isLt
    apply BitVec.eq_of_toNat_eq
    simp only [append_toNat, BitVec.extractLsb'_toNat, Nat.shiftRight_eq_div_pow,
      Nat.reducePow] at hlow ⊢
    omega
  have hoff : BitVec.ofNat 8 (g.gd_off_31_16.toNat / 256) ++ BitVec.ofNat 8 g.gd_off_31_16.toNat ++
      BitVec.ofNat 8 (g.gd_off_15_0.toNat / 256) ++ BitVec.ofNat 8 g.gd_off_15_0.toNat =
        g.gd_off_31_16 ++ g.gd_off_15_0 := by
    rw [half_parts g.gd_off_31_16]
    exact BitVec.eq_of_toNat_eq (append_half _ _)
  have hread : readGate g.bytes =
      { sel := BitVec.ofNat 8 (g.gd_sel.toNat / 256) ++ BitVec.ofNat 8 g.gd_sel.toNat
        off := BitVec.ofNat 8 (g.gd_off_31_16.toNat / 256) ++
          BitVec.ofNat 8 g.gd_off_31_16.toNat ++ BitVec.ofNat 8 (g.gd_off_15_0.toNat / 256) ++
            BitVec.ofNat 8 g.gd_off_15_0.toNat
        args := (g.gd_rsv1 ++ g.gd_args).extractLsb' 0 5
        type := (g.gd_p ++ g.gd_dpl ++ g.gd_s ++ g.gd_type).extractLsb' 0 4
        application := (g.gd_p ++ g.gd_dpl ++ g.gd_s ++ g.gd_type).getLsbD 4
        dpl := (g.gd_p ++ g.gd_dpl ++ g.gd_s ++ g.gd_type).extractLsb' 5 2
        present := (g.gd_p ++ g.gd_dpl ++ g.gd_s ++ g.gd_type).getLsbD 7 } := rfl
  rw [hread, half_parts g.gd_sel, hoff, hargs, htype, happlication, hdpl, hpresent]

theorem off_parts (off : Word) :
    ((off >>> 16).setWidth 16 : BitVec 16) ++ ((off &&& 0xFFFF).setWidth 16 : BitVec 16) = off := by
  have hoff := off.isLt
  rw [low_half]
  apply BitVec.eq_of_toNat_eq
  simp only [append_toNat, BitVec.toNat_setWidth, BitVec.toNat_ushiftRight,
    Nat.shiftRight_eq_div_pow, Nat.reducePow] at hoff ⊢
  omega

theorem readGate_SETGATE (gate : Gatedesc) (istrap : Bool) (sel : BitVec 16) (off : Word)
    (dpl : BitVec 2) :
    readGate (SETGATE gate istrap sel off dpl).bytes =
      ⟨sel, off, 0, if istrap then STS_TG32 else STS_IG32, false, dpl, true⟩ := by
  rw [readGate_bytes]
  simp only [SETGATE, off_parts]
  rfl

theorem readGate_SETCALLGATE (gate : Gatedesc) (sel : BitVec 16) (off : Word) (dpl : BitVec 2) :
    readGate (SETCALLGATE gate sel off dpl).bytes =
      ⟨sel, off, 0, STS_CG32, false, dpl, true⟩ := by
  rw [readGate_bytes]
  simp only [SETCALLGATE, off_parts]
  rfl

/-- Whatever a gate was before: behind `SETGATE` an interrupt goes to the handler,
a program may ask for it up to the gate's privilege level, only a trap leaves the
interrupts on, and no call goes through; behind `SETCALLGATE` calls go through up
to that level, which binds the caller and its selector, and no interrupt. -/
theorem gates_enter (gate : Gatedesc) (istrap : Bool) (sel : BitVec 16) (off : Word)
    (dpl cpl rpl : BitVec 2) (software intr : Bool) :
    ((readGate (SETGATE gate istrap sel off dpl).bytes).interrupt cpl software intr =
        if software = true → cpl.toNat ≤ dpl.toNat then some (sel, off, intr && istrap)
        else none) ∧
      (readGate (SETGATE gate istrap sel off dpl).bytes).call cpl rpl = none ∧
      ((readGate (SETCALLGATE gate sel off dpl).bytes).call cpl rpl =
        if cpl.toNat ≤ dpl.toNat ∧ rpl.toNat ≤ dpl.toNat then some (sel, off) else none) ∧
      (readGate (SETCALLGATE gate sel off dpl).bytes).interrupt cpl software intr = none := by
  rw [readGate_SETGATE, readGate_SETCALLGATE]
  refine ⟨?_, ?_, ?_, ?_⟩
  · cases istrap
    all_goals simp [Gate.interrupt, STS_IG32, STS_TG32]
  · cases istrap
    all_goals simp [Gate.call, STS_IG32, STS_TG32]
  · simp [Gate.call, STS_CG32]
  · simp [Gate.interrupt, STS_CG32]

end JOSKernel.Boot.Segments
