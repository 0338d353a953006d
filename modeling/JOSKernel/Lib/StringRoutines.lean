import JOSKernel.General.MachineInt

/-!
# Basic string routines (`lib/string.c`)

A `const char *` argument is the list of bytes readable from it, the
terminating NUL included.  A routine that reads past the last of them has no
result.
-/

namespace JOSKernel.Lib.StringRoutines

open JOSKernel.General.MachineInt

/-- A C string in memory: its characters and the NUL. -/
def cstr (s : List Byte) : List Byte := s ++ [0]

def strnlen : List Byte → Nat → Option Nat
  | _, 0 => some 0
  | [], _ + 1 => none
  | byte :: s, size + 1 =>
      if byte = 0 then some 0 else (strnlen s size).map (· + 1)

/-- With the NUL in reach, `strnlen` is the smaller of length and bound. -/
theorem strnlen_cstr {s : List Byte} (hnul : 0 ∉ s) (rest : List Byte) (size : Nat) :
    strnlen (s ++ 0 :: rest) size = some (min s.length size) := by
  induction s generalizing size with
  | nil => cases size <;> simp [strnlen]
  | cons byte s ih =>
      simp only [List.mem_cons, not_or] at hnul
      cases size with
      | zero => simp [strnlen]
      | succ size =>
          rw [List.cons_append, strnlen, if_neg (Ne.symm hnul.1), ih hnul.2]
          simp

/-- The pointer that `strchr` returns, NULL or an offset into `s`. -/
def strchr : List Byte → Byte → Option (Option Nat)
  | [], _ => none
  | byte :: s, c =>
      if byte = 0 then some none
      else if byte = c then some (some 0)
      else (strchr s c).map fun p => p.map (· + 1)

/-- `strchr` finds exactly the characters in front of the NUL. -/
theorem strchr_cstr {s : List Byte} (hnul : 0 ∉ s) (rest : List Byte) (c : Byte) :
    ∃ p, strchr (s ++ 0 :: rest) c = some p ∧ (p.isSome ↔ c ∈ s) := by
  induction s with
  | nil => exact ⟨none, rfl, by simp⟩
  | cons byte s ih =>
      have hbyte : byte ≠ 0 := fun h => hnul (h ▸ List.mem_cons_self)
      obtain ⟨p, hp, hfound⟩ := ih fun h => hnul (List.mem_cons_of_mem _ h)
      rw [List.cons_append, strchr, if_neg hbyte]
      by_cases hc : byte = c
      · exact ⟨some 0, if_pos hc, by simp [hc]⟩
      · refine ⟨p.map (· + 1), by rw [if_neg hc, hp]; rfl, ?_⟩
        rw [Option.isSome_map, hfound, List.mem_cons, or_iff_right (Ne.symm hc)]

/-! ## `strfind` -/

/-- The pointer that `strfind` returns, as an offset into `s`. -/
def strfind : List Byte → Byte → Option Nat
  | [], _ => none
  | byte :: s, c => if byte = 0 ∨ byte = c then some 0 else (strfind s c).map (· + 1)

/-- The text `s` goes on for `n` characters before a `c` or the NUL. -/
structure UpTo (s : List Byte) (c : Byte) (n : Nat) : Prop where
  inside : ∀ i < n, s[i]? ≠ some 0 ∧ s[i]? ≠ some c
  stop : s[n]? = some 0 ∨ s[n]? = some c

theorem strfind_spec {s : List Byte} (c : Byte) (hnul : 0 ∈ s) :
    ∃ n, strfind s c = some n ∧ UpTo s c n := by
  induction s with
  | nil => cases hnul
  | cons byte s ih =>
      rw [strfind]
      by_cases hstop : byte = 0 ∨ byte = c
      · refine ⟨0, if_pos hstop, fun i hi => absurd hi (Nat.not_lt_zero i), ?_⟩
        simpa using hstop
      · have hrest : 0 ∈ s := (List.mem_cons.mp hnul).resolve_left fun h => hstop (.inl h.symm)
        obtain ⟨n, hfind, hup⟩ := ih hrest
        refine ⟨n + 1, by rw [if_neg hstop, hfind]; rfl, ?_, by simpa using hup.stop⟩
        intro i hi
        cases i with
        | zero => simpa [not_or] using hstop
        | succ i => simpa using hup.inside i (Nat.lt_of_succ_lt_succ hi)

theorem UpTo.lt_length {s : List Byte} {c : Byte} {n : Nat} (h : UpTo s c n) : n < s.length := by
  rcases h.stop with hstop | hstop
  all_goals exact (List.getElem?_eq_some_iff.mp hstop).1

/-- The characters before the place form a text without a NUL. -/
theorem UpTo.split {s : List Byte} {c : Byte} {n : Nat} (h : UpTo s c n) :
    (s.take n).length = n ∧ 0 ∉ s.take n ∧ ∃ stop rest, s = s.take n ++ stop :: rest := by
  have hlength := h.lt_length
  refine ⟨List.length_take_of_le (Nat.le_of_lt hlength), ?_, s[n], s.drop (n + 1), ?_⟩
  · intro hmem
    obtain ⟨i, hi, hat⟩ := List.mem_take_iff_getElem.mp hmem
    have hin : i < n := Nat.lt_of_lt_of_le hi (Nat.min_le_left _ _)
    apply (h.inside i hin).1
    rw [List.getElem?_eq_getElem (Nat.lt_trans hin hlength), hat]
  · rw [List.getElem_cons_drop, List.take_append_drop]

/-! ## `strtol` -/

/-- Gobble initial whitespace. -/
def skipBlanks : List Byte → Option (List Byte)
  | [] => none
  | ch :: s =>
      if ch = ascii ' ' ∨ ch = 9 then skipBlanks s else some (ch :: s)

/-- The plus/minus sign, and whether it is a minus. -/
def signPrefix : List Byte → Option (Bool × List Byte)
  | [] => none
  | ch :: s =>
      if ch = ascii '+' then some (false, s)
      else if ch = ascii '-' then some (true, s)
      else some (false, ch :: s)

/-- The hex or octal base prefix, and the base to go on with. -/
def basePrefix (base : Int) : List Byte → Option (Int × List Byte)
  | [] => none
  | ch :: s =>
      if (base = 0 ∨ base = 16) ∧ ch = ascii '0' then
        match s with
        | [] => none
        | next :: after =>
            if next = ascii 'x' then some (16, after)
            else if base = 0 then some (8, next :: after)
            else some (base, ch :: next :: after)
      else if base = 0 then some (10, ch :: s)
      else some (base, ch :: s)

/-- The variable `dig`, where the character is a digit of any base at all. -/
def digitValue (ch : Byte) : Option Nat :=
  if (ascii '0').toNat ≤ ch.toNat ∧ ch.toNat ≤ (ascii '9').toNat then
    some (ch.toNat - (ascii '0').toNat)
  else if (ascii 'a').toNat ≤ ch.toNat ∧ ch.toNat ≤ (ascii 'z').toNat then
    some (ch.toNat - (ascii 'a').toNat + 10)
  else if (ascii 'A').toNat ≤ ch.toNat ∧ ch.toNat ≤ (ascii 'Z').toNat then
    some (ch.toNat - (ascii 'A').toNat + 10)
  else none

/-- The digit loop, with the wrap of a 32-bit `long` at each step. -/
def strtolDigits (base : Int) : Int → List Byte → Option (Int × List Byte)
  | _, [] => none
  | val, ch :: s =>
      match digitValue ch with
      | none => some (val, ch :: s)
      | some dig =>
          if dig ≥ base then some (val, ch :: s)
          else strtolDigits base (int32 (int32 (val * base) + dig)) s

/-- The value, and the text `*endptr` points to. -/
def strtol (s : List Byte) (base : Int) : Option (Int × List Byte) := do
  let s ← skipBlanks s
  let (neg, s) ← signPrefix s
  let (base, s) ← basePrefix base s
  let (val, s) ← strtolDigits base 0 s
  return (if neg then int32 (-val) else val, s)

end JOSKernel.Lib.StringRoutines
