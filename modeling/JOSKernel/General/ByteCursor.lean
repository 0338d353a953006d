import JOSKernel.General.MachineInt
import Mathlib.Data.List.Induction

/-!
# Pointers into a byte array

A `const char *` into an array of bytes is a two-sided cursor: the bytes below
the pointer, nearest first, and the bytes from the pointer on.  A read or a
step outside the array has no value.
-/

namespace JOSKernel.General.ByteCursor

open JOSKernel.General.MachineInt

structure Cursor where
  before : List Byte
  after : List Byte

namespace Cursor

/-- A pointer to the first byte of an array. -/
def start (array : List Byte) : Cursor := ⟨[], array⟩

/-- The expression `*p++`: the byte read and the advanced pointer. -/
def next? : Cursor → Option (Byte × Cursor)
  | ⟨_, []⟩ => none
  | ⟨before, byte :: after⟩ => some (byte, ⟨byte :: before, after⟩)

/-- The statement `p--`. -/
def back? : Cursor → Option Cursor
  | ⟨[], _⟩ => none
  | ⟨byte :: before, after⟩ => some ⟨before, byte :: after⟩

/-- `while (p[-1] != stop) p--`, over the bytes below and from the pointer. -/
def seekBack? (stop : Byte) : List Byte → List Byte → Option Cursor
  | [], _ => none
  | byte :: before, after =>
      if byte = stop then some ⟨byte :: before, after⟩
      else seekBack? stop before (byte :: after)

@[simp]
theorem next?_cons (before after : List Byte) (byte : Byte) :
    next? ⟨before, byte :: after⟩ = some (byte, ⟨byte :: before, after⟩) := rfl

@[simp]
theorem back?_cons (before after : List Byte) (byte : Byte) :
    back? ⟨byte :: before, after⟩ = some ⟨before, byte :: after⟩ := rfl

/-- Seeking back over bytes other than `stop` lands just above the nearest one. -/
theorem seekBack?_append {stop : Byte} {skipped : List Byte}
    (hclean : stop ∉ skipped) (before after : List Byte) :
    seekBack? stop (skipped.reverse ++ stop :: before) after =
      some ⟨stop :: before, skipped ++ after⟩ := by
  induction skipped using List.reverseRecOn generalizing after with
  | nil => simp [seekBack?]
  | append_singleton skipped byte ih =>
      simp only [List.mem_append, List.mem_singleton, not_or] at hclean
      simp only [List.reverse_append, List.reverse_cons, List.reverse_nil,
        List.nil_append, List.cons_append, seekBack?]
      rw [if_neg (Ne.symm hclean.2), ih hclean.1]
      simp

end Cursor

end JOSKernel.General.ByteCursor
