import Mathlib.Tactic.Common

/-!
# Fixed-width machine integers

Bytes and machine words are bit vectors.  A 32-bit `int` local is an integer
that is brought back into the two's-complement range after every operation
that can leave it.
-/

namespace JOSKernel.General.MachineInt

abbrev Byte := BitVec 8

abbrev Word := BitVec 32

/-- The byte of an ASCII character. -/
def ascii (c : Char) : Byte := BitVec.ofNat 8 c.toNat

/-- The bytes of an ASCII string, without a terminator. -/
def bytes (s : String) : List Byte := s.toList.map ascii

/-- A byte read through `unsigned char` and promoted to `int`. -/
def ofUChar (b : Byte) : Word := b.setWidth 32

/-- A byte read through a signed `char` and promoted to `int`. -/
def ofChar (b : Byte) : Word := b.signExtend 32

/-- Reduce an integer to the value a 32-bit two's-complement `int` holds. -/
def int32 (z : Int) : Int := (z + 2147483648) % 4294967296 - 2147483648

theorem int32_of_range {z : Int} (hlow : -2147483648 ≤ z) (hhigh : z < 2147483648) :
    int32 z = z := by
  unfold int32
  omega

theorem int32_lt (z : Int) : int32 z < 2147483648 := by
  unfold int32
  omega

/-- Only the residue modulo `2 ^ 32` of an `int` computation matters. -/
theorem int32_congr {y z : Int} (h : y % 4294967296 = z % 4294967296) :
    int32 y = int32 z := by
  unfold int32
  omega

theorem int32_emod (z : Int) : int32 z % 4294967296 = z % 4294967296 := by
  unfold int32
  omega

/-- An `int` counter of `n` events is still one after the next event. -/
theorem int32_succ (n : Nat) : int32 (int32 n + 1) = int32 ((n + 1 : Nat) : Int) := by
  apply int32_congr
  have := int32_emod (n : Int)
  omega

/-- One step of Horner's rule in an `int`. -/
theorem int32_horner (v b d : Nat) :
    int32 (int32 (int32 v * b) + d) = int32 ((v * b + d : Nat) : Int) := by
  have hmul : int32 (int32 v * b) % 4294967296 = v * b % 4294967296 := by
    rw [int32_emod, Int.mul_emod, int32_emod, ← Int.mul_emod]
  apply int32_congr
  rw [Int.add_emod, hmul, ← Int.add_emod, Int.natCast_add, Int.natCast_mul]

theorem int32_neg (z : Int) : int32 (-int32 z) = int32 (-z) := by
  have hz := int32_emod z
  apply int32_congr
  omega

theorem toInt_ofInt_word (z : Int) : (BitVec.ofInt 32 z).toInt = int32 z := by
  rw [BitVec.toInt_ofInt, Int.bmod_def]
  unfold int32
  simp only [Nat.reducePow]
  split <;> omega

theorem toInt_word_range (w : Word) : -2147483648 ≤ w.toInt ∧ w.toInt < 2147483648 := by
  have hlow := BitVec.le_toInt w
  have hhigh := BitVec.toInt_lt (x := w)
  simp only [Nat.reduceSub, Int.reducePow, Int.reduceNeg] at hlow hhigh
  exact ⟨hlow, hhigh⟩

/-- A seven-bit character promotes to the same `int` through both `char` types. -/
theorem ofChar_eq_ofUChar {b : Byte} (h : b.toNat < 128) : ofChar b = ofUChar b := by
  unfold ofChar ofUChar
  apply BitVec.signExtend_eq_setWidth_of_msb_false
  rw [BitVec.msb_eq_decide]
  simp only [Nat.reduceSub, Nat.reducePow, decide_eq_false_iff_not, Nat.not_le]
  exact h

/-- A `char` survives its promotion to `int`. -/
theorem ofChar_setWidth (b : Byte) : (ofChar b).setWidth 8 = b := by
  apply BitVec.eq_of_getLsbD_eq
  intro i hi
  rw [ofChar, BitVec.getLsbD_setWidth, BitVec.getLsbD_signExtend]
  simp [hi, Nat.lt_trans hi]

end JOSKernel.General.MachineInt
