import JOSKernel.General.MachineInt

/-!
# Byte-addressed memory

Memory is a total map from addresses to bytes.  A range that is written as a
whole is an overlay; writing the byte behind an overlay extends it.
-/

namespace JOSKernel.General.ByteMemory

open JOSKernel.General.MachineInt

abbrev Memory := Nat → Byte

def store (m : Memory) (addr : Nat) (value : Byte) : Memory :=
  fun a => if a = addr then value else m a

/-- The memory `m` with the `n` bytes from `dst` on replaced by `f`. -/
def overlay (m : Memory) (dst n : Nat) (f : Nat → Byte) : Memory :=
  fun a => if dst ≤ a ∧ a < dst + n then f (a - dst) else m a

@[simp]
theorem store_same (m : Memory) (addr : Nat) (value : Byte) :
    store m addr value addr = value := by
  simp [store]

theorem store_of_ne (m : Memory) {addr a : Nat} (value : Byte) (h : a ≠ addr) :
    store m addr value a = m a := by
  simp [store, h]

@[simp]
theorem overlay_zero (m : Memory) (dst : Nat) (f : Nat → Byte) : overlay m dst 0 f = m := by
  funext a
  unfold overlay
  rw [if_neg (by omega)]

theorem overlay_apply (m : Memory) (dst : Nat) {n i : Nat} (f : Nat → Byte) (h : i < n) :
    overlay m dst n f (dst + i) = f i := by
  unfold overlay
  rw [if_pos (by omega), Nat.add_sub_cancel_left]

theorem overlay_outside (m : Memory) {dst n a : Nat} (f : Nat → Byte)
    (h : a < dst ∨ dst + n ≤ a) : overlay m dst n f a = m a := by
  unfold overlay
  rw [if_neg (by omega)]

/-- Storing the byte behind an overlay extends it by one. -/
theorem store_overlay (m : Memory) (dst n : Nat) (f : Nat → Byte) :
    store (overlay m dst n f) (dst + n) (f n) = overlay m dst (n + 1) f := by
  funext a
  unfold store overlay
  by_cases hlast : a = dst + n
  · rw [if_pos hlast, if_pos (by omega), hlast, Nat.add_sub_cancel_left]
  · rw [if_neg hlast]
    by_cases hin : dst ≤ a ∧ a < dst + n
    · rw [if_pos hin, if_pos (by omega)]
    · rw [if_neg hin, if_neg (by omega)]

/-- Two adjacent ranges make one. -/
theorem overlay_append (m : Memory) (dst n n' : Nat) (f : Nat → Byte) :
    overlay (overlay m dst n f) (dst + n) n' (fun i => f (n + i)) = overlay m dst (n + n') f := by
  funext a
  unfold overlay
  by_cases hsecond : dst + n ≤ a ∧ a < dst + n + n'
  · have hshift : n + (a - (dst + n)) = a - dst := by omega
    rw [if_pos hsecond, if_pos (by omega), ← hshift]
  · rw [if_neg hsecond]
    by_cases hfirst : dst ≤ a ∧ a < dst + n
    · rw [if_pos hfirst, if_pos (by omega)]
    · rw [if_neg hfirst, if_neg (by omega)]

/-- Only the values inside the range matter. -/
theorem overlay_congr (m : Memory) (dst n : Nat) {f g : Nat → Byte}
    (h : ∀ i < n, f i = g i) : overlay m dst n f = overlay m dst n g := by
  funext a
  unfold overlay
  split
  · exact h _ (by omega)
  · rfl

/-! ## Sixteen-bit cells -/

/-- The 16-bit value at `addr`, low byte first. -/
def load16 (m : Memory) (addr : Nat) : BitVec 16 := m (addr + 1) ++ m addr

def store16 (m : Memory) (addr : Nat) (value : BitVec 16) : Memory :=
  store (store m addr (value.setWidth 8)) (addr + 1) ((value >>> 8).setWidth 8)

@[simp]
theorem load16_store16 (m : Memory) (addr : Nat) (value : BitVec 16) :
    load16 (store16 m addr value) addr = value := by
  rw [load16, store16, store_same, store_of_ne _ _ (by omega), store_same]
  apply BitVec.eq_of_getLsbD_eq
  intro i hi
  rw [BitVec.getLsbD_append]
  split
  · simp [*]
  · rename_i hlow
    simp [show i - 8 < 8 by omega, show 8 + (i - 8) = i by omega]

theorem store16_outside (m : Memory) {addr a : Nat} (value : BitVec 16)
    (h : a < addr ∨ addr + 2 ≤ a) : store16 m addr value a = m a := by
  rw [store16, store_of_ne _ _ (by omega), store_of_ne _ _ (by omega)]

theorem load16_congr {m m' : Memory} {a a' : Nat} (hlow : m a = m' a')
    (hhigh : m (a + 1) = m' (a' + 1)) : load16 m a = load16 m' a' := by
  rw [load16, load16, hlow, hhigh]

theorem load16_store16_of_ne (m : Memory) {addr a : Nat} (value : BitVec 16)
    (h : a + 2 ≤ addr ∨ addr + 2 ≤ a) : load16 (store16 m addr value) a = load16 m a :=
  load16_congr (store16_outside m value (by omega)) (store16_outside m value (by omega))

/-! ## Little-endian numbers -/

def readLE (m : Memory) (addr : Nat) : Nat → Nat
  | 0 => 0
  | width + 1 => (m addr).toNat + 256 * readLE m (addr + 1) width

theorem readLE_congr {m m' : Memory} {addr addr' width : Nat}
    (h : ∀ i < width, m (addr + i) = m' (addr' + i)) :
    readLE m addr width = readLE m' addr' width := by
  induction width generalizing addr addr' with
  | zero => rfl
  | succ width ih =>
      have hfirst := h 0 (Nat.succ_pos width)
      have hrest : ∀ i < width, m (addr + 1 + i) = m' (addr' + 1 + i) := by
        intro i hi
        have hnext := h (i + 1) (Nat.succ_lt_succ hi)
        rw [Nat.add_assoc, Nat.add_assoc, Nat.add_comm 1 i]
        exact hnext
      rw [readLE, readLE, ih hrest, show m addr = m' addr' from hfirst]

/-- Four bytes make a 32-bit number. -/
theorem readLE_four_lt (m : Memory) (addr : Nat) : readLE m addr 4 < 4294967296 := by
  have h₀ := (m addr).isLt
  have h₁ := (m (addr + 1)).isLt
  have h₂ := (m (addr + 1 + 1)).isLt
  have h₃ := (m (addr + 1 + 1 + 1)).isLt
  simp only [readLE]
  omega

/-- The bytes of a 16-bit number, low byte first. -/
def halfBytes (v : BitVec 16) : List Byte :=
  [BitVec.ofNat 8 v.toNat, BitVec.ofNat 8 (v.toNat / 256)]

/-- The bytes of a 32-bit number, low byte first. -/
def wordBytes (v : Word) : List Byte :=
  [BitVec.ofNat 8 v.toNat, BitVec.ofNat 8 (v.toNat / 256), BitVec.ofNat 8 (v.toNat / 65536),
    BitVec.ofNat 8 (v.toNat / 16777216)]

theorem readLE_wordBytes {m : Memory} {addr : Nat} {v : Word}
    (h : ∀ i < 4, m (addr + i) = (wordBytes v).getD i 0) : readLE m addr 4 = v.toNat := by
  have hv := v.isLt
  have h₀ : m addr = BitVec.ofNat 8 v.toNat := h 0 (by decide)
  have h₁ : m (addr + 1) = BitVec.ofNat 8 (v.toNat / 256) := h 1 (by decide)
  have h₂ : m (addr + 2) = BitVec.ofNat 8 (v.toNat / 65536) := h 2 (by decide)
  have h₃ : m (addr + 3) = BitVec.ofNat 8 (v.toNat / 16777216) := h 3 (by decide)
  simp only [readLE, Nat.add_assoc, Nat.reduceAdd, h₀, h₁, h₂, h₃, BitVec.toNat_ofNat,
    Nat.reducePow] at hv ⊢
  omega

def storeWord (m : Memory) (addr : Nat) (v : Word) : Memory :=
  overlay m addr 4 fun i => (wordBytes v).getD i 0

@[simp]
theorem readLE_storeWord (m : Memory) (addr : Nat) (v : Word) :
    readLE (storeWord m addr v) addr 4 = v.toNat :=
  readLE_wordBytes fun _ hi => overlay_apply m addr _ hi

theorem storeWord_outside (m : Memory) {addr a : Nat} (v : Word) (h : a < addr ∨ addr + 4 ≤ a) :
    storeWord m addr v a = m a :=
  overlay_outside m _ h

/-- Store bytes to consecutive addresses, each of which has a place in memory. -/
def storeVia (place : Word → Option Nat) (m : Memory) : Word → List Byte → Option Memory
  | _, [] => some m
  | la, b :: bs => do
      let pa ← place la
      let m ← storeVia place m (la + 1) bs
      some (store m pa b)

theorem storeVia_eq {place : Word → Option Nat} (m : Memory) {la : Word} {pa : Nat}
    {bs : List Byte} (h : ∀ i < bs.length, place (la + BitVec.ofNat 32 i) = some (pa + i)) :
    storeVia place m la bs = some (overlay m pa bs.length fun i => bs.getD i 0) := by
  induction bs generalizing la pa with
  | nil => rw [storeVia, List.length_nil, overlay_zero]
  | cons b bs ih =>
      have hfirst : place la = some pa := by
        have hzero := h 0 (Nat.succ_pos _)
        rwa [BitVec.add_zero, Nat.add_zero] at hzero
      have hrest : ∀ i < bs.length, place (la + 1 + BitVec.ofNat 32 i) = some (pa + 1 + i) := by
        intro i hi
        have hnext := h (i + 1) (Nat.succ_lt_succ hi)
        rw [Nat.add_comm i, BitVec.ofNat_add, ← BitVec.add_assoc, ← Nat.add_assoc] at hnext
        exact hnext
      rw [storeVia, hfirst]
      simp only [ih hrest, Option.bind_eq_bind, Option.bind_some, List.length_cons]
      congr 1
      funext a
      unfold store overlay
      by_cases hhere : a = pa
      · rw [if_pos hhere, if_pos (by omega), hhere, Nat.sub_self]
        rfl
      · rw [if_neg hhere]
        by_cases hin : pa + 1 ≤ a ∧ a < pa + 1 + bs.length
        · have hindex : a - pa = a - (pa + 1) + 1 := by omega
          rw [if_pos hin, if_pos (by omega), hindex]
          rfl
        · rw [if_neg hin, if_neg (by omega)]

/-- The bytes of a number that was read are the bytes it was read from. -/
theorem wordBytes_readLE (m : Memory) (addr : Nat) {i : Nat} (hi : i < 4) :
    (wordBytes (BitVec.ofNat 32 (readLE m addr 4))).getD i 0 = m (addr + i) := by
  have h₀ := (m addr).isLt
  have h₁ := (m (addr + 1)).isLt
  have h₂ := (m (addr + 2)).isLt
  have h₃ := (m (addr + 3)).isLt
  have hvalue : readLE m addr 4 = (m addr).toNat + 256 * ((m (addr + 1)).toNat +
      256 * ((m (addr + 2)).toNat + 256 * (m (addr + 3)).toNat)) := by
    simp only [readLE, Nat.add_assoc, Nat.reduceAdd, Nat.mul_zero, Nat.add_zero]
  have hword : (BitVec.ofNat 32 (readLE m addr 4)).toNat = readLE m addr 4 := by
    rw [BitVec.toNat_ofNat]
    exact Nat.mod_eq_of_lt (readLE_four_lt m addr)
  rw [wordBytes, hword, hvalue]
  apply BitVec.eq_of_toNat_eq
  simp only [Nat.reducePow] at h₀ h₁ h₂ h₃
  obtain rfl | rfl | rfl | rfl : i = 0 ∨ i = 1 ∨ i = 2 ∨ i = 3 := by omega
  all_goals
    simp only [List.getD_cons_zero, List.getD_cons_succ, BitVec.toNat_ofNat, Nat.reducePow,
      Nat.add_zero]
    omega

/-! ## Blocks written one after another -/

structure Block where
  dst : Nat
  size : Nat
  data : Nat → Byte

def Block.Covers (b : Block) (a : Nat) : Prop := b.dst ≤ a ∧ a < b.dst + b.size

def writeBlocks : List Block → Memory → Memory
  | [], m => m
  | b :: bs, m => writeBlocks bs (overlay m b.dst b.size b.data)

theorem writeBlocks_append (bs bs' : List Block) (m : Memory) :
    writeBlocks (bs ++ bs') m = writeBlocks bs' (writeBlocks bs m) := by
  induction bs generalizing m with
  | nil => rfl
  | cons b bs ih => exact ih _

theorem writeBlocks_outside {bs : List Block} (m : Memory) {a : Nat}
    (h : ∀ b ∈ bs, ¬ b.Covers a) : writeBlocks bs m a = m a := by
  induction bs generalizing m with
  | nil => rfl
  | cons b bs ih =>
      have hb := h b List.mem_cons_self
      rw [writeBlocks, ih _ fun b hb => h b (List.mem_cons_of_mem _ hb)]
      refine overlay_outside _ _ ?_
      rw [Block.Covers] at hb
      omega

/-- The last block that covers an address decides its byte. -/
theorem writeBlocks_last (before : List Block) (b : Block) {after : List Block} (m : Memory) {a : Nat}
    (hb : b.Covers a) (hafter : ∀ b ∈ after, ¬ b.Covers a) :
    writeBlocks (before ++ b :: after) m a = b.data (a - b.dst) := by
  obtain ⟨i, rfl⟩ := Nat.exists_eq_add_of_le hb.1
  have hi : i < b.size := by
    have := hb.2
    omega
  rw [writeBlocks_append, writeBlocks, writeBlocks_outside _ hafter, overlay_apply _ _ _ hi,
    Nat.add_sub_cancel_left]

/-- Either no member has the property, or there is a last one that has it. -/
theorem none_or_last {α : Type} (p : α → Prop) (l : List α) :
    (∀ x ∈ l, ¬ p x) ∨
      ∃ middle t after, l = middle ++ t :: after ∧ p t ∧ ∀ u ∈ after, ¬ p u := by
  induction l with
  | nil => exact .inl fun x hx => nomatch hx
  | cons x l ih =>
      rcases ih with hnone | ⟨middle, t, after, rfl, ht, hafter⟩
      · by_cases hx : p x
        · exact .inr ⟨[], x, l, rfl, hx, hnone⟩
        · exact .inl (List.forall_mem_cons.mpr ⟨hx, hnone⟩)
      · exact .inr ⟨x :: middle, t, after, rfl, ht, hafter⟩

/-! ## Reading a range -/

/-- The `n` bytes from `addr` on. -/
def readBytes (m : Memory) (addr n : Nat) : List Byte := (List.range n).map fun i => m (addr + i)

@[simp]
theorem readBytes_length (m : Memory) (addr n : Nat) : (readBytes m addr n).length = n := by
  simp [readBytes]

theorem getElem_readBytes (m : Memory) (addr n : Nat) {i : Nat}
    (h : i < (readBytes m addr n).length) : (readBytes m addr n)[i] = m (addr + i) := by
  simp [readBytes]

/-- A text and the NUL behind it, read from a larger range that starts there. -/
theorem readBytes_text {m : Memory} {addr n : Nat} {text : List Byte} (hlen : text.length < n)
    (htext : ∀ i (h : i < text.length), m (addr + i) = text[i])
    (hnul : m (addr + text.length) = 0) :
    readBytes m addr n = text ++ (readBytes m addr n).drop text.length ∧
      (readBytes m addr n).drop text.length = 0 :: (readBytes m addr n).drop (text.length + 1) := by
  have htake : (readBytes m addr n).take text.length = text := by
    apply List.ext_getElem
    · rw [List.length_take, readBytes_length]
      omega
    · intro i _ hi
      rw [List.getElem_take, getElem_readBytes, htext i hi]
  constructor
  · conv =>
      lhs
      rw [← List.take_append_drop text.length (readBytes m addr n), htake]
  · rw [List.drop_eq_getElem_cons (by rw [readBytes_length]; exact hlen), getElem_readBytes, hnul]

end JOSKernel.General.ByteMemory
