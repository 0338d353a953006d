import JOSKernel.Kern.Printf
import JOSKernel.Lib.FormatText

/-!
# Printing a string

A string can be printed as a format of its own or through `%s`.  The literal
characters of a format are read as `unsigned char`, those of a `%s` as `char`,
and `cga_putc` takes the bits above the low byte for an attribute.
-/

namespace JOSKernel.Kern.StringOutput

open JOSKernel.General.MachineInt
open JOSKernel.Kern.ConsoleOutput
open JOSKernel.Kern.Printf
open JOSKernel.Lib.FormatText
open JOSKernel.Lib.Printfmt
open JOSKernel.Lib.StringRoutines

/-- The cells on the screen behind a call. -/
def screenAfter (call : Option (Int × Console)) : Option (Nat → BitVec 16) :=
  call.map fun result => result.2.screen

/-- Printed either way, the string at `p` comes out as the same `int`s, and
leaves the same cells from every start. -/
structure PrintsAlike (p : Word) (s : List Byte) : Prop where
  ints : stream (cstr s) [] = stream (cstr (bytes "%s")) [.ptr p (cstr s)]
  screens : ∀ st, screenAfter (cprintf (cstr s) [] st) =
    screenAfter (cprintf (cstr (bytes "%s")) [.ptr p (cstr s)] st)

/-- The `int`s are the same when every byte is in the seven-bit range and `%s`
has no width left over; its width is an `int` counted down from `-1`. -/
theorem ints_eq_iff {p : Word} (hp : p ≠ 0) {s : List Byte} (hnul : 0 ∉ s)
    (hpercent : ascii '%' ∉ s) :
    stream (cstr s) [] = stream (cstr (bytes "%s")) [.ptr p (cstr s)] ↔
      (∀ b ∈ s, b.toNat < 128) ∧ int32 (-1 - s.length) ≤ 0 := by
  rw [stream_text hnul hpercent, stream_string hp hnul, Option.some.injEq, Prod.mk.injEq,
    ← map_ofUChar_eq_iff]
  constructor
  · rintro ⟨_, hints⟩
    have hlength := congrArg List.length hints
    simp only [List.length_append, List.length_map, List.length_replicate] at hlength
    have hspaces : (int32 (-1 - s.length)).toNat = 0 := by omega
    rw [hspaces, List.replicate_zero, List.append_nil] at hints
    exact ⟨hints, by omega⟩
  · rintro ⟨hbytes, hwidth⟩
    have hspaces : (int32 (-1 - s.length)).toNat = 0 := by omega
    rw [hspaces, List.replicate_zero, List.append_nil]
    exact ⟨rfl, hbytes⟩

/-- A call prints nothing but its stream. -/
theorem cprintf_congr {fmt fmt' : List Byte} {args args' : List Arg}
    (h : stream fmt args = stream fmt' args') (st : Console) :
    cprintf fmt args st = cprintf fmt' args' st := by
  rw [cprintf, cprintf, vcprintf, vcprintf, vprintfmt_eq_feed, vprintfmt_eq_feed, h]

/-- The two ways differ on a byte with its top bit set, and on a string so long
that the width wraps. -/
theorem printsAlike_iff {p : Word} (hp : p ≠ 0) {s : List Byte} (hnul : 0 ∉ s)
    (hpercent : ascii '%' ∉ s) :
    PrintsAlike p s ↔ (∀ b ∈ s, b.toNat < 128) ∧ int32 (-1 - s.length) ≤ 0 := by
  rw [← ints_eq_iff hp hnul hpercent]
  constructor
  · intro h
    exact h.ints
  · intro hints
    refine ⟨hints, ?_⟩
    intro st
    rw [cprintf_congr hints st]

theorem printsAlike_iff_prompt :
    PrintsAlike 0xF0100000 (bytes "K> ") ↔
      (∀ b ∈ bytes "K> ", b.toNat < 128) ∧ int32 (-1 - (bytes "K> ").length) ≤ 0 :=
  printsAlike_iff (by decide) (by decide) (by decide)

/-- The byte `0x80` appears black on white as a literal, and with every
attribute bit set through `%s`. -/
theorem top_bit_not_alike :
    (cprintf (cstr [0x80]) [] idle).map (fun result => result.2.screen 0) = some 0x0780 ∧
      (cprintf (cstr (bytes "%s")) [.ptr 0xF0100000 (cstr [0x80])] idle).map
        (fun result => result.2.screen 0) = some 0xFF80 ∧
      ¬ ∀ (p : Word) (s : List Byte), p ≠ 0 → 0 ∉ s → ascii '%' ∉ s → PrintsAlike p s := by
  refine ⟨by decide, by decide, ?_⟩
  intro hall
  have hints := (hall 0xF0100000 [0x80] (by decide) (by decide) (by decide)).ints
  exact absurd hints (by decide)

end JOSKernel.Kern.StringOutput
