import JOSKernel.General.ByteMemory

/-!
# Block moves and fills (`lib/string.c`)

`memmove` picks one of four `rep movs` loops by direction and alignment.  A
loop reads each element whole before it writes it and steps both pointers, as
32-bit registers, the same way.  Whichever is picked, the destination ends up
with the bytes the source had before the call.  `memset` picks one of two
`rep stos` loops.
-/

namespace JOSKernel.Lib.StringMemory

open JOSKernel.General.MachineInt
open JOSKernel.General.ByteMemory

/-- `rep movs` with elements of `width` bytes; `next` steps a pointer
register the way the direction flag says. -/
def repMovs (width : Nat) (next : Nat → Nat) : Nat → Memory → Nat → Nat → Memory
  | 0, m, _, _ => m
  | count + 1, m, dst, src =>
      repMovs width next count (overlay m dst width (fun i => m (src + i)))
        (next dst) (next src)

/-- The direction flag clear, after `cld`. -/
def stepUp (width : Nat) (addr : Nat) : Nat := (addr + width) % 4294967296

/-- The direction flag set, after `std`. -/
def stepDown (width : Nat) (addr : Nat) : Nat := (addr + 4294967296 - width) % 4294967296

def memmove (m : Memory) (dst src n : Nat) : Memory :=
  if src < dst ∧ (src + n) % 4294967296 > dst then
    let s := (src + n) % 4294967296
    let d := (dst + n) % 4294967296
    if s % 4 = 0 ∧ d % 4 = 0 ∧ n % 4 = 0 then
      repMovs 4 (stepDown 4) (n / 4) m (stepDown 4 d) (stepDown 4 s)
    else repMovs 1 (stepDown 1) n m (stepDown 1 d) (stepDown 1 s)
  else
    if src % 4 = 0 ∧ dst % 4 = 0 ∧ n % 4 = 0 then
      repMovs 4 (stepUp 4) (n / 4) m dst src
    else repMovs 1 (stepUp 1) n m dst src

/-! ## What the loops copy -/

theorem stepUp_of_lt {width addr : Nat} (h : addr + width < 4294967296) :
    stepUp width addr = addr + width :=
  Nat.mod_eq_of_lt h

theorem stepDown_add {width addr : Nat} (h : addr + width ≤ 4294967296) (hw : 0 < width) :
    stepDown width ((addr + width) % 4294967296) = addr := by
  unfold stepDown
  omega

/-- A first element, then the rest of an upward copy read from the memory the
element left behind. -/
theorem overlay_upward (m : Memory) {dst src width n : Nat}
    (hapart : dst ≤ src ∨ src + (width + n) ≤ dst) :
    overlay (overlay m dst width (fun i => m (src + i))) (dst + width) n
        (fun i => overlay m dst width (fun i => m (src + i)) (src + width + i)) =
      overlay m dst (width + n) (fun i => m (src + i)) := by
  funext a
  by_cases hhead : dst ≤ a ∧ a < dst + width
  · rw [overlay_outside _ _ (by omega)]
    obtain ⟨i, rfl⟩ := Nat.exists_eq_add_of_le hhead.1
    rw [overlay_apply _ _ _ (by omega), overlay_apply _ _ _ (by omega)]
  · by_cases htail : dst + width ≤ a ∧ a < dst + width + n
    · obtain ⟨i, rfl⟩ := Nat.exists_eq_add_of_le htail.1
      rw [overlay_apply _ _ _ (by omega), overlay_outside _ _ (by omega), Nat.add_assoc dst,
        overlay_apply _ _ _ (by omega), Nat.add_assoc src]
    · rw [overlay_outside _ _ (by omega), overlay_outside _ _ (by omega),
        overlay_outside _ _ (by omega)]

/-- A last element, then the rest of a downward copy. -/
theorem overlay_downward (m : Memory) {dst src width n : Nat} (hapart : src ≤ dst) :
    overlay (overlay m (dst + n) width (fun i => m (src + n + i))) dst n
        (fun i => overlay m (dst + n) width (fun i => m (src + n + i)) (src + i)) =
      overlay m dst (n + width) (fun i => m (src + i)) := by
  funext a
  by_cases htail : dst ≤ a ∧ a < dst + n
  · obtain ⟨i, rfl⟩ := Nat.exists_eq_add_of_le htail.1
    rw [overlay_apply _ _ _ (by omega), overlay_outside _ _ (by omega),
      overlay_apply _ _ _ (by omega)]
  · rw [overlay_outside _ _ (by omega)]
    by_cases hhead : dst + n ≤ a ∧ a < dst + n + width
    · obtain ⟨i, rfl⟩ := Nat.exists_eq_add_of_le hhead.1
      rw [overlay_apply _ _ _ (by omega), Nat.add_assoc dst, overlay_apply _ _ _ (by omega),
        Nat.add_assoc src]
    · rw [overlay_outside _ _ (by omega), overlay_outside _ _ (by omega)]

theorem repMovs_up (width : Nat) (hw : 0 < width) (count : Nat) (m : Memory) (dst src : Nat)
    (hdst : dst + count * width ≤ 4294967296) (hsrc : src + count * width ≤ 4294967296)
    (hapart : dst ≤ src ∨ src + count * width ≤ dst) :
    repMovs width (stepUp width) count m dst src =
      overlay m dst (count * width) (fun i => m (src + i)) := by
  induction count generalizing m dst src with
  | zero => simp [repMovs]
  | succ count ih =>
      rw [Nat.succ_mul] at hdst hsrc hapart ⊢
      rw [repMovs]
      cases count with
      | zero => simp [repMovs]
      | succ count =>
          have hpos : width ≤ (count + 1) * width := Nat.le_mul_of_pos_left width (by omega)
          rw [stepUp_of_lt (by omega), stepUp_of_lt (by omega),
            ih _ _ _ (by omega) (by omega) (by omega),
            Nat.add_comm ((count + 1) * width) width]
          exact overlay_upward m (by omega)

theorem repMovs_down (width : Nat) (hw : 0 < width) (count : Nat) (m : Memory) (dst src : Nat)
    (hdst : dst + count * width ≤ 4294967296) (hsrc : src + count * width ≤ 4294967296)
    (hapart : src ≤ dst) :
    repMovs width (stepDown width) count m
        (stepDown width ((dst + count * width) % 4294967296))
        (stepDown width ((src + count * width) % 4294967296)) =
      overlay m dst (count * width) (fun i => m (src + i)) := by
  induction count generalizing m with
  | zero => simp [repMovs]
  | succ count ih =>
      rw [Nat.succ_mul] at hdst hsrc ⊢
      rw [← Nat.add_assoc, ← Nat.add_assoc, stepDown_add (by omega) hw, stepDown_add (by omega) hw,
        repMovs]
      have hlow (addr : Nat) (h : addr + (count * width + width) ≤ 4294967296) :
          addr + count * width = (addr + count * width) % 4294967296 :=
        (Nat.mod_eq_of_lt (by omega)).symm
      conv =>
        lhs
        rw [hlow dst hdst, hlow src hsrc]
      rw [ih _ (by omega) (by omega), ← hlow dst hdst, ← hlow src hsrc]
      exact overlay_downward m hapart

/-- `memmove` copies the bytes the source held before the call and changes
nothing else, for any overlap and any alignment. -/
theorem memmove_eq (m : Memory) (dst src n : Nat)
    (hdst : dst + n ≤ 4294967296) (hsrc : src + n ≤ 4294967296) :
    memmove m dst src n = overlay m dst n (fun i => m (src + i)) := by
  unfold memmove
  by_cases hback : src < dst ∧ (src + n) % 4294967296 > dst
  · rw [if_pos hback]
    dsimp only
    split
    · rename_i halign
      have hmul : n / 4 * 4 = n := by omega
      have hmove := repMovs_down 4 (by decide) (n / 4) m dst src (by omega) (by omega) (by omega)
      rw [hmul] at hmove
      exact hmove
    · have hmove := repMovs_down 1 (by decide) n m dst src (by omega) (by omega) (by omega)
      rw [Nat.mul_one] at hmove
      exact hmove
  · rw [if_neg hback]
    split
    · rename_i halign
      have hmul : n / 4 * 4 = n := by omega
      have hmove := repMovs_up 4 (by decide) (n / 4) m dst src (by omega) (by omega) (by omega)
      rw [hmul] at hmove
      exact hmove
    · have hmove := repMovs_up 1 (by decide) n m dst src (by omega) (by omega) (by omega)
      rw [Nat.mul_one] at hmove
      exact hmove

/-- `memcpy` is `memmove`. -/
def memcpy (m : Memory) (dst src n : Nat) : Memory := memmove m dst src n

/-! ## `memset` -/

/-- `rep stos` with elements of `width` bytes, the low bytes of `eax`. -/
def repStos (width : Nat) (eax : Word) : Nat → Memory → Nat → Memory
  | 0, m, _ => m
  | count + 1, m, edi =>
      repStos width eax count (overlay m edi width fun i => (eax >>> (8 * i)).setWidth 8)
        (stepUp width edi)

def memset (m : Memory) (v : Nat) (c : Word) (n : Nat) : Memory :=
  if n = 0 then m
  else if v % 4 = 0 ∧ n % 4 = 0 then
    let c := c &&& 0xFF
    let c := c <<< 24 ||| c <<< 16 ||| c <<< 8 ||| c
    repStos 4 c (n / 4) m v
  else repStos 1 c n m v

theorem lowByte_bit (c : Word) (k : Nat) :
    (c &&& 0xFF).getLsbD k = (decide (k < 8) && c.getLsbD k) := by
  have hmask : (0xFF : Word).getLsbD k = decide (k < 8) := by
    rw [show (0xFF : Word) = BitVec.ofNat 32 (2 ^ 8 - 1) from rfl, BitVec.getLsbD_ofNat,
      Nat.testBit_two_pow_sub_one, ← Bool.decide_and, decide_eq_decide]
    omega
  rw [BitVec.getLsbD_and, hmask, Bool.and_comm]

/-- Each byte of the replicated word is the low byte of `c`. -/
theorem replicated_byte (c : Word) {i : Nat} (hi : i < 4) :
    (((c &&& 0xFF) <<< 24 ||| (c &&& 0xFF) <<< 16 ||| (c &&& 0xFF) <<< 8 ||| (c &&& 0xFF)) >>>
      (8 * i)).setWidth 8 = c.setWidth 8 := by
  apply BitVec.eq_of_getLsbD_eq
  intro j hj
  simp only [BitVec.getLsbD_setWidth, BitVec.getLsbD_ushiftRight, BitVec.getLsbD_or,
    BitVec.getLsbD_shiftLeft, lowByte_bit]
  grind

/-- A fill with elements whose bytes are all `b` fills the range with `b`. -/
theorem repStos_eq (width : Nat) (hw : 0 < width) (eax : Word) {b : Byte}
    (hb : ∀ i < width, (eax >>> (8 * i)).setWidth 8 = b) (count : Nat) (m : Memory) (edi : Nat)
    (hroom : edi + count * width ≤ 4294967296) :
    repStos width eax count m edi = overlay m edi (count * width) fun _ => b := by
  induction count generalizing m edi with
  | zero => simp [repStos]
  | succ count ih =>
      rw [Nat.succ_mul] at hroom ⊢
      rw [repStos, overlay_congr m edi width hb]
      cases count with
      | zero => simp [repStos]
      | succ count =>
          have hpos : width ≤ (count + 1) * width := Nat.le_mul_of_pos_left width (by omega)
          rw [stepUp_of_lt (by omega), ih _ _ (by omega), Nat.add_comm ((count + 1) * width) width]
          exact overlay_append m edi width _ fun _ => b

theorem repStos_word_eq (m : Memory) {v n : Nat} (c : Word) (halign : n % 4 = 0)
    (hroom : v + n ≤ 4294967296) :
    repStos 4 ((c &&& 0xFF) <<< 24 ||| (c &&& 0xFF) <<< 16 ||| (c &&& 0xFF) <<< 8 ||| (c &&& 0xFF))
      (n / 4) m v = overlay m v n fun _ => c.setWidth 8 := by
  have hmul : n / 4 * 4 = n := by omega
  have hfill := repStos_eq 4 (by decide) _ (fun i hi => replicated_byte c hi) (n / 4) m v (by omega)
  rw [hmul] at hfill
  exact hfill

theorem repStos_byte_eq (m : Memory) {v n : Nat} (c : Word) (hroom : v + n ≤ 4294967296) :
    repStos 1 c n m v = overlay m v n fun _ => c.setWidth 8 := by
  have hbyte : ∀ i < 1, (c >>> (8 * i)).setWidth 8 = c.setWidth 8 := by
    intro i hi
    rw [Nat.lt_one_iff.mp hi]
    rfl
  have hfill := repStos_eq 1 (by decide) c hbyte n m v (by omega)
  rw [Nat.mul_one] at hfill
  exact hfill

/-- `memset` fills the range with the low byte of `c`, on either path. -/
theorem memset_eq (m : Memory) {v n : Nat} (c : Word) (hroom : v + n ≤ 4294967296) :
    memset m v c n = overlay m v n fun _ => c.setWidth 8 := by
  unfold memset
  split
  · rename_i hzero
    rw [hzero, overlay_zero]
  · split
    · rename_i halign
      exact repStos_word_eq m c halign.2 hroom
    · exact repStos_byte_eq m c hroom

end JOSKernel.Lib.StringMemory
