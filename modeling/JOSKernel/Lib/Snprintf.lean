import JOSKernel.General.ByteMemory
import JOSKernel.Lib.PrintfmtStream

/-!
# Formatting into a buffer (`lib/printfmt.c`)

`vsnprintf` formats through a sink that counts every character and stores
those that still fit below the last byte of the buffer.  After any stream the
sink has written exactly the prefix of the stream that fits, so the final NUL
lands behind it and inside the buffer.
-/

namespace JOSKernel.Lib.Snprintf

open JOSKernel.General.MachineInt
open JOSKernel.General.ByteMemory
open JOSKernel.Lib.Printfmt
open JOSKernel.Lib.StringRoutines

def E_INVAL : Int := 3

/-- The members `buf` and `ebuf` are addresses. -/
structure Sprintbuf where
  buf : Nat
  ebuf : Nat
  cnt : Int

def sprintputch (ch : Word) (state : Memory × Sprintbuf) : Memory × Sprintbuf :=
  let (m, b) := state
  let b := { b with cnt := int32 (b.cnt + 1) }
  if b.buf < b.ebuf then
    (store m b.buf (ch.setWidth 8), { b with buf := (b.buf + 1) % 4294967296 })
  else (m, b)

def vsnprintf (m : Memory) (buf : Nat) (n : Int) (fmt : List Byte) (ap : List Arg) :
    Option (Int × Memory) :=
  let b : Sprintbuf := ⟨buf, ((buf + n - 1) % 4294967296).toNat, 0⟩
  if buf = 0 ∨ n < 1 then some (-E_INVAL, m)
  else do
    let (_, m, b) ← vprintfmt sprintputch fmt ap (m, b)
    return (b.cnt, store m b.buf 0)

def snprintf (m : Memory) (buf : Nat) (n : Int) (fmt : List Byte) (args : List Arg) :
    Option (Int × Memory) :=
  vsnprintf m buf n fmt args

/-! ## The state of the sink after a stream -/

/-- The bytes of a stream, each character taken modulo 256. -/
def lowByte (out : List Word) (i : Nat) : Byte := (out.getD i 0).setWidth 8

/-- The sink of an `n`-byte buffer that has been fed the stream `out`. -/
structure Filled (m : Memory) (buf n : Nat) (out : List Word)
    (state : Memory × Sprintbuf) : Prop where
  memory : state.1 = overlay m buf (min (n - 1) out.length) (lowByte out)
  buf_eq : state.2.buf = buf + min (n - 1) out.length
  ebuf_eq : state.2.ebuf = buf + (n - 1)
  cnt_eq : state.2.cnt = int32 out.length

theorem lowByte_append (out rest : List Word) {i : Nat} (h : i < out.length) :
    lowByte (out ++ rest) i = lowByte out i := by
  unfold lowByte
  rw [List.getD_eq_getElem?_getD, List.getD_eq_getElem?_getD, List.getElem?_append_left h]

theorem lowByte_last (out : List Word) (ch : Word) :
    lowByte (out ++ [ch]) out.length = ch.setWidth 8 := by
  simp [lowByte]

/-- One character keeps the sink filled with the stream so far. -/
theorem Filled.putch {m : Memory} {buf n : Nat} {out : List Word}
    {state : Memory × Sprintbuf} (hroom : buf + n ≤ 4294967296) (hn : 1 ≤ n)
    (filled : Filled m buf n out state) (ch : Word) :
    Filled m buf n (out ++ [ch]) (sprintputch ch state) := by
  obtain ⟨m', b⟩ := state
  obtain ⟨hmemory, hbuf, hebuf, hcnt⟩ := filled
  dsimp only at hmemory hbuf hebuf hcnt
  have hcount : int32 (b.cnt + 1) = int32 ((out ++ [ch]).length : Nat) := by
    rw [hcnt, int32_succ, List.length_append, List.length_singleton]
  unfold sprintputch
  dsimp only
  by_cases hfits : out.length < n - 1
  · have hmin : min (n - 1) out.length = out.length := by omega
    have hmin' : min (n - 1) (out ++ [ch]).length = out.length + 1 := by
      rw [List.length_append, List.length_singleton]
      omega
    rw [hmin] at hmemory hbuf
    rw [if_pos (by omega)]
    refine ⟨?_, ?_, hebuf, hcount⟩
    · dsimp only
      rw [hmemory, hbuf, hmin', ← store_overlay, lowByte_last]
      congr 1
      exact overlay_congr m buf _ fun i hi => (lowByte_append out [ch] hi).symm
    · dsimp only
      rw [hbuf, hmin', Nat.mod_eq_of_lt (by omega)]
      omega
  · have hmin : min (n - 1) out.length = n - 1 := by omega
    have hmin' : min (n - 1) (out ++ [ch]).length = n - 1 := by
      rw [List.length_append, List.length_singleton]
      omega
    rw [hmin] at hmemory hbuf
    rw [if_neg (by omega)]
    refine ⟨?_, ?_, hebuf, hcount⟩
    · dsimp only
      rw [hmemory, hmin']
      exact overlay_congr m buf _ fun i hi => (lowByte_append out [ch] (by omega)).symm
    · dsimp only
      rw [hbuf, hmin']

/-- Any stream leaves the sink filled with it. -/
theorem filled_feed (m : Memory) {buf n : Nat} (hroom : buf + n ≤ 4294967296) (hn : 1 ≤ n)
    (out : List Word) :
    Filled m buf n out (feed sprintputch out (m, ⟨buf, buf + (n - 1), 0⟩)) := by
  induction out using List.reverseRecOn with
  | nil =>
      refine ⟨?_, ?_, rfl, rfl⟩
      · simp
      · simp
  | append_singleton out ch ih =>
      rw [feed_append]
      exact ih.putch hroom hn ch

/-- The call as a whole, with the final memory as an equation. -/
theorem vsnprintf_eq (m : Memory) {buf n : Nat} (hbuf : buf ≠ 0) (hn : 1 ≤ n)
    (hroom : buf + n ≤ 4294967296) {fmt : List Byte} {ap rest : List Arg} {out : List Word}
    (hstream : stream fmt ap = some (rest, out)) :
    vsnprintf m buf n fmt ap =
      some (int32 out.length,
        store (overlay m buf (min (n - 1) out.length) (lowByte out))
          (buf + min (n - 1) out.length) 0) := by
  have hebuf : (((buf : Int) + (n : Int) - 1) % 4294967296).toNat = buf + (n - 1) := by omega
  have hfilled := filled_feed m hroom hn out
  unfold vsnprintf
  rw [if_neg (by omega), vprintfmt_eq_feed, hstream, hebuf]
  simp only [Option.map_some, Option.bind_eq_bind, Option.bind_some, Option.pure_def]
  rw [hfilled.memory, hfilled.buf_eq, hfilled.cnt_eq]

/-- Output that fits stands in the buffer as text, its NUL behind it. -/
theorem vsnprintf_text (m : Memory) {buf n : Nat} (hbuf : buf ≠ 0) (hroom : buf + n ≤ 4294967296)
    {fmt : List Byte} {ap rest : List Arg} {text : List Byte}
    (hstream : stream fmt ap = some (rest, text.map ofChar)) (hfits : text.length < n) :
    ∃ m', vsnprintf m buf n fmt ap = some (int32 text.length, m') ∧
      (∀ i (h : i < text.length), m' (buf + i) = text[i]) ∧ m' (buf + text.length) = 0 := by
  have hcall := vsnprintf_eq m hbuf (by omega) hroom hstream
  have hmin : min (n - 1) text.length = text.length := by omega
  rw [List.length_map, hmin] at hcall
  refine ⟨_, hcall, ?_, store_same _ _ _⟩
  intro i hi
  rw [store_of_ne _ _ (by omega), overlay_apply _ _ _ hi, lowByte]
  simp [hi, ofChar_setWidth]

/-! ## The contract of `vsnprintf` -/

/-- A call on a real buffer stores the longest prefix of the output that
leaves room for the NUL, and nothing else, and returns the length of the whole
output; a call without a buffer stores nothing. -/
theorem vsnprintf_contract :
    (∀ (m : Memory) (buf n : Nat) (fmt : List Byte) (ap rest : List Arg) (out : List Word),
      buf ≠ 0 → 1 ≤ n → buf + n ≤ 4294967296 → stream fmt ap = some (rest, out) →
      out.length < 2147483648 →
      ∃ m', vsnprintf m buf n fmt ap = some ((out.length : Int), m') ∧
        (∀ i < min (n - 1) out.length, m' (buf + i) = (out.getD i 0).setWidth 8) ∧
        m' (buf + min (n - 1) out.length) = 0 ∧
        (∀ a, a < buf ∨ buf + min (n - 1) out.length < a → m' a = m a) ∧
        (∀ a, a < buf ∨ buf + n ≤ a → m' a = m a)) ∧
    (∀ (m : Memory) (buf : Nat) (n : Int) (fmt : List Byte) (ap : List Arg),
      buf = 0 ∨ n < 1 → vsnprintf m buf n fmt ap = some (-E_INVAL, m)) := by
  constructor
  · intro m buf n fmt ap rest out hbuf hn hroom hstream hlength
    have hcall := vsnprintf_eq m hbuf hn hroom hstream
    rw [int32_of_range (by omega) (by omega)] at hcall
    have hunchanged (a : Nat) (ha : a < buf ∨ buf + min (n - 1) out.length < a) :
        store (overlay m buf (min (n - 1) out.length) (lowByte out))
          (buf + min (n - 1) out.length) 0 a = m a := by
      rw [store_of_ne _ _ (by omega), overlay_outside _ _ (by omega)]
    refine ⟨_, hcall, ?_, store_same _ _ _, hunchanged, ?_⟩
    · intro i hi
      rw [store_of_ne _ _ (by omega), overlay_apply _ _ _ hi]
      rfl
    · intro a ha
      exact hunchanged a (by omega)
  · intro m buf n fmt ap hbad
    unfold vsnprintf
    rw [if_pos hbad]

/-- A hexadecimal field that is cut off in its digits, and a call without a buffer. -/
theorem vsnprintf_contract_field :
    (∃ m', vsnprintf (fun _ => 7) (4096 : Nat) (11 : Nat) (cstr (bytes "eax %8x")) [.int 0xBEEF] =
        some (12, m') ∧
      (∀ i < 10, m' (4096 + i) = (bytes "eax     be").getD i 0) ∧
      m' 4106 = 0 ∧ m' 4107 = 7 ∧ m' 4095 = 7) ∧
    vsnprintf (fun _ => 7) 0 11 (cstr (bytes "eax %8x")) [.int 0xBEEF] =
      some (-3, fun _ => 7) := by
  have hstream : stream (cstr (bytes "eax %8x")) [.int 0xBEEF] =
      some ([], (bytes "eax     beef").map ofChar) := by decide +kernel
  have hstored : ∀ i < 10, (((bytes "eax     beef").map ofChar).getD i 0).setWidth 8 =
      (bytes "eax     be").getD i 0 := by decide
  obtain ⟨m', hcall, hstart, hnul, hkept, _⟩ :=
    vsnprintf_contract.1 (fun _ => 7) 4096 11 _ _ _ _ (by decide) (by decide) (by decide) hstream
      (by decide)
  exact ⟨⟨m', hcall, fun i hi => (hstart i hi).trans (hstored i hi), hnul,
      hkept 4107 (by decide), hkept 4095 (by decide)⟩,
    vsnprintf_contract.2 (fun _ => 7) 0 11 _ _ (Or.inl rfl)⟩

end JOSKernel.Lib.Snprintf
