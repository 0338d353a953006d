import JOSKernel.Lib.StringMemory

/-!
# The portable block routines (`lib/string.c` without `ASM`)

The byte loops behind the `#else` move and fill memory without string
instructions.  The move agrees with the assembly everywhere.  The fill counts
down in an `int`, so that it agrees only as long as its length is at most
`2 ^ 31`.
-/

namespace JOSKernel.Lib.PortableMemory

open JOSKernel.General.MachineInt
open JOSKernel.General.ByteMemory

/-- `while (n-- > 0)` over a copy of one byte, with the pointer steps before
and after it. -/
def copyLoop (pre post : Nat → Nat) : Nat → Memory → Nat → Nat → Memory
  | 0, m, _, _ => m
  | n + 1, m, d, s =>
      copyLoop pre post n (store m (pre d) (m (pre s))) (post (pre d)) (post (pre s))

/-- `*--d = *--s` from the ends of the ranges, or `*d++ = *s++` from their starts. -/
def memmove (m : Memory) (dst src n : Nat) : Memory :=
  if src < dst ∧ (src + n) % 4294967296 > dst then
    copyLoop (StringMemory.stepDown 1) id n m ((dst + n) % 4294967296) ((src + n) % 4294967296)
  else copyLoop id (StringMemory.stepUp 1) n m dst src

/-- `while (--m >= 0) *p++ = c;` with the `int` counter `i`. -/
def fillLoop (c : Byte) (i : Int) (m : Memory) (p : Nat) : Memory :=
  if 0 ≤ int32 (i - 1) then
    fillLoop c (int32 (i - 1)) (store m p c) (StringMemory.stepUp 1 p)
  else m
termination_by (int32 (i - 1) + 1).toNat
decreasing_by
  rename_i hgo
  have hlt := int32_lt (i - 1)
  rw [int32_of_range (z := int32 (i - 1) - 1) (by omega) (by omega)]
  omega

def memset (m : Memory) (v : Nat) (c : Word) (n : Nat) : Memory :=
  fillLoop (c.setWidth 8) (int32 n) m v

/-! ## The moves agree -/

theorem overlay_one (m : Memory) (dst : Nat) (f : Nat → Byte) :
    overlay m dst 1 f = store m dst (f 0) := by
  have hstore := store_overlay m dst 0 f
  rw [overlay_zero] at hstore
  exact hstore.symm

theorem copyLoop_down (step : Nat → Nat) (n : Nat) (m : Memory) (d s : Nat) :
    copyLoop step id n m d s = StringMemory.repMovs 1 step n m (step d) (step s) := by
  induction n generalizing m d s with
  | zero => rfl
  | succ n ih => rw [copyLoop, ih, StringMemory.repMovs, overlay_one]; rfl

theorem copyLoop_up (step : Nat → Nat) (n : Nat) (m : Memory) (d s : Nat) :
    copyLoop id step n m d s = StringMemory.repMovs 1 step n m d s := by
  induction n generalizing m d s with
  | zero => rfl
  | succ n ih => rw [copyLoop, ih, StringMemory.repMovs, overlay_one]; rfl

theorem memmove_eq (m : Memory) {dst src n : Nat} (hdst : dst + n ≤ 4294967296)
    (hsrc : src + n ≤ 4294967296) :
    memmove m dst src n = overlay m dst n fun i => m (src + i) := by
  unfold memmove
  by_cases hback : src < dst ∧ (src + n) % 4294967296 > dst
  · have hmove := StringMemory.repMovs_down 1 (by decide) n m dst src (by omega) (by omega)
      (by omega)
    rw [if_pos hback, copyLoop_down]
    rw [Nat.mul_one] at hmove
    exact hmove
  · have hmove := StringMemory.repMovs_up 1 (by decide) n m dst src (by omega) (by omega)
      (by omega)
    rw [if_neg hback, copyLoop_up]
    rw [Nat.mul_one] at hmove
    exact hmove

/-- A move leaves in the destination the bytes the source held before, changes
no other byte, and the portable loops and `memcpy` leave the same memory. -/
theorem memmove_copies (m : Memory) {dst src n : Nat} (hdst : dst + n ≤ 4294967296)
    (hsrc : src + n ≤ 4294967296) :
    (∀ i < n, StringMemory.memmove m dst src n (dst + i) = m (src + i)) ∧
      (∀ a, a < dst ∨ dst + n ≤ a → StringMemory.memmove m dst src n a = m a) ∧
      memmove m dst src n = StringMemory.memmove m dst src n ∧
      StringMemory.memcpy m dst src n = StringMemory.memmove m dst src n := by
  rw [memmove_eq m hdst hsrc, StringMemory.memcpy, StringMemory.memmove_eq m dst src n hdst hsrc]
  refine ⟨?_, ?_, rfl, rfl⟩
  · intro i hi
    exact overlay_apply m dst _ hi
  · intro a ha
    exact overlay_outside m _ ha

/-- Eight bytes moved up by four, at the top of the address space. -/
theorem memmove_copies_overlap :
    (∀ i < 8, StringMemory.memmove (BitVec.ofNat 8) 4294967288 4294967284 8 (4294967288 + i) =
        BitVec.ofNat 8 (4294967284 + i)) ∧
      (∀ a, a < 4294967288 ∨ 4294967288 + 8 ≤ a →
        StringMemory.memmove (BitVec.ofNat 8) 4294967288 4294967284 8 a = BitVec.ofNat 8 a) ∧
      memmove (BitVec.ofNat 8) 4294967288 4294967284 8 =
        StringMemory.memmove (BitVec.ofNat 8) 4294967288 4294967284 8 ∧
      StringMemory.memcpy (BitVec.ofNat 8) 4294967288 4294967284 8 =
        StringMemory.memmove (BitVec.ofNat 8) 4294967288 4294967284 8 :=
  memmove_copies (BitVec.ofNat 8) (by decide) (by decide)

/-! ## The fills agree up to the range of the counter -/

theorem fillLoop_eq (c : Byte) (i : Int) (m : Memory) (p : Nat)
    (hroom : p + (int32 (i - 1) + 1).toNat ≤ 4294967296) :
    fillLoop c i m p = overlay m p (int32 (i - 1) + 1).toNat fun _ => c := by
  fun_induction fillLoop c i m p with
  | case1 i m p hgo ih =>
      have hlt := int32_lt (i - 1)
      obtain ⟨k, hk⟩ : ∃ k : Nat, int32 (i - 1) = k := ⟨(int32 (i - 1)).toNat, by omega⟩
      have hnext : int32 (int32 (i - 1) - 1) = (k : Int) - 1 := by
        rw [int32_of_range (by omega) (by omega), hk]
      have hcount : (int32 (int32 (i - 1) - 1) + 1).toNat = k := by omega
      have htotal : (int32 (i - 1) + 1).toNat = 1 + k := by omega
      rw [htotal] at hroom ⊢
      rw [hcount] at ih
      cases k with
      | zero =>
          have hwrap : StringMemory.stepUp 1 p < 4294967296 := Nat.mod_lt _ (by decide)
          rw [ih (by omega), overlay_zero]
          exact (overlay_one m p fun _ => c).symm
      | succ k =>
          have happend := overlay_append m p 1 (k + 1) fun _ => c
          rw [overlay_one] at happend
          rw [StringMemory.stepUp_of_lt (by omega)] at ih ⊢
          rw [ih (by omega)]
          exact happend
  | case2 i m p hstop =>
      have hcount : (int32 (i - 1) + 1).toNat = 0 := by omega
      rw [hcount, overlay_zero]

/-- The rounds that the counter makes for a length. -/
theorem counter_rounds {n : Nat} (hn : n < 4294967296) :
    (int32 (int32 n - 1) + 1).toNat = if n ≤ 2147483648 then n else 0 := by
  unfold int32
  split <;> omega

theorem memset_eq (m : Memory) {v n : Nat} (c : Word) (hn : n < 4294967296)
    (hroom : v + n ≤ 4294967296) :
    memset m v c n =
      overlay m v (if n ≤ 2147483648 then n else 0) fun _ => c.setWidth 8 := by
  have hrounds := counter_rounds hn
  rw [memset, fillLoop_eq, hrounds]
  rw [hrounds]
  split
  · exact hroom
  · omega

theorem lowByte_value (c : Word) : ((c.setWidth 8).toNat : Int) = c.toInt % 256 := by
  rw [BitVec.toNat_setWidth, BitVec.toInt_eq_toNat_cond]
  have hc := c.isLt
  simp only [Nat.reducePow] at hc ⊢
  split <;> omega

/-- The range and nothing else is set to `c` modulo 256, and the byte path and
the portable loop leave the same memory as the path that is taken. -/
structure Agree (m : Memory) (v : Nat) (c : Word) (n : Nat) : Prop where
  filled : ∀ i < n, ((StringMemory.memset m v c n (v + i)).toNat : Int) = c.toInt % 256
  frame : ∀ a, a < v ∨ v + n ≤ a → StringMemory.memset m v c n a = m a
  bytes : StringMemory.repStos 1 c n m v = StringMemory.memset m v c n
  portable : memset m v c n = StringMemory.memset m v c n

/-- The assembly does its part for every length. -/
theorem agree_of_portable (m : Memory) {v n : Nat} (c : Word) (hroom : v + n ≤ 4294967296)
    (hportable : memset m v c n = StringMemory.memset m v c n) : Agree m v c n := by
  constructor
  · intro i hi
    rw [StringMemory.memset_eq m c hroom, overlay_apply m v _ hi, lowByte_value]
  · intro a ha
    rw [StringMemory.memset_eq m c hroom, overlay_outside m _ ha]
  · rw [StringMemory.memset_eq m c hroom, StringMemory.repStos_byte_eq m c hroom]
  · exact hportable

/-- Beyond the range of the counter the portable loop stores nothing. -/
theorem memset_stalls (m : Memory) {v n : Nat} (c : Word) (hn : n < 4294967296)
    (hroom : v + n ≤ 4294967296) (hlong : 2147483648 < n) : memset m v c n = m := by
  rw [memset_eq m c hn hroom, if_neg (Nat.not_le.mpr hlong), overlay_zero]

/-- The three fills agree exactly when the length is at most `2 ^ 31` or the
range holds the fill byte already. -/
theorem memset_agree_iff (m : Memory) {v n : Nat} (c : Word) (hn : n < 4294967296)
    (hroom : v + n ≤ 4294967296) :
    Agree m v c n ↔ n ≤ 2147483648 ∨ ∀ i < n, ((m (v + i)).toNat : Int) = c.toInt % 256 := by
  constructor
  · intro hagree
    by_cases hshort : n ≤ 2147483648
    · exact .inl hshort
    · right
      intro i hi
      rw [← hagree.filled i hi, ← hagree.portable, memset_stalls m c hn hroom (by omega)]
  · intro hcond
    apply agree_of_portable m c hroom
    rw [memset_eq m c hn hroom, StringMemory.memset_eq m c hroom]
    by_cases hshort : n ≤ 2147483648
    · rw [if_pos hshort]
    · have hsame := hcond.resolve_left hshort
      rw [if_neg hshort, overlay_zero]
      funext a
      by_cases hin : v ≤ a ∧ a < v + n
      · obtain ⟨i, rfl⟩ := Nat.exists_eq_add_of_le hin.1
        have hi : i < n := by omega
        rw [overlay_apply m v _ hi]
        have hvalue := (hsame i hi).trans (lowByte_value c).symm
        exact BitVec.eq_of_toNat_eq (Int.ofNat_inj.mp hvalue)
      · rw [overlay_outside m _ (by omega)]

/-- A short unaligned fill. -/
theorem memset_agree_iff_short :
    Agree (fun _ => 0) 4097 0x1FF#32 7 ↔
      7 ≤ 2147483648 ∨
        ∀ i < 7, (((fun _ => 0 : Memory) (4097 + i)).toNat : Int) = (0x1FF#32).toInt % 256 :=
  memset_agree_iff (fun _ => 0) 0x1FF#32 (by decide) (by decide)

/-- A fill of more than half the address space: the portable loop leaves the
first byte as it was. -/
theorem memset_disagrees : ¬ Agree (fun _ => 0) 0 1#32 2147483649 := by
  intro hagree
  have hfirst := hagree.filled 0 (by decide)
  rw [← hagree.portable, memset_stalls _ _ (by decide) (by decide) (by decide)] at hfirst
  exact absurd hfirst (by decide)

end JOSKernel.Lib.PortableMemory
