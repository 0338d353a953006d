import JOSKernel.Kern.ConsoleOutput
import JOSKernel.Lib.FormatWalk
import JOSKernel.Lib.SilentFormat

/-!
# Formatted console output (`kern/printf.c`)

`cprintf` formats through a sink that prints on the console and is meant to
count what it prints.  The statement `*cnt++` advances the sink's own copy of
the pointer, so the counter keeps its first value and the call returns zero.
-/

namespace JOSKernel.Kern.Printf

open JOSKernel.General.MachineInt
open JOSKernel.General.ByteMemory
open JOSKernel.Kern.ConsoleOutput
open JOSKernel.Lib.Printfmt
open JOSKernel.Lib.StringRoutines
open JOSKernel.Lib.Snprintf

/-- The state behind `putdat` is the console and the counter `*cnt`. -/
def putch (ch : Word) (state : Console × Int) : Console × Int :=
  let (st, cnt) := state
  -- `*cnt++` parses as `*(cnt++)`: the counter is read and dropped
  (cputchar ch st, cnt)

def vcprintf (fmt : List Byte) (ap : List Arg) (st : Console) : Option (Int × Console) := do
  let (_, st, cnt) ← vprintfmt putch fmt ap (st, 0)
  return (cnt, st)

def cprintf (fmt : List Byte) (args : List Arg) (st : Console) : Option (Int × Console) :=
  vcprintf fmt args st

theorem feed_putch (out : List Word) (st : Console) (cnt : Int) :
    feed putch out (st, cnt) = (feed cputchar out st, cnt) := by
  induction out generalizing st with
  | nil => rfl
  | cons ch out ih => exact ih (cputchar ch st)

/-- A call prints its stream character by character and returns zero. -/
theorem cprintf_eq {fmt : List Byte} {args rest : List Arg} {out : List Word}
    (hstream : stream fmt args = some (rest, out)) (st : Console) :
    cprintf fmt args st = some (0, feed cputchar out st) := by
  rw [cprintf, vcprintf, vprintfmt_eq_feed, hstream]
  simp only [Option.map_some, Option.bind_eq_bind, Option.bind_some, Option.pure_def, feed_putch]

/-- `%s` takes any string with a NUL. -/
theorem takeArgs_string (p : Word) {str : List Byte} (hnul : 0 ∈ str) (items : List Item)
    (ap : List Arg) :
    takeArgs hasMagnitude (.directive [] (ascii 's') :: items) (.ptr p str :: ap) =
      takeArgs hasMagnitude items ap := by
  have hreadable : p = 0 ∨ Readable Locals.reset.precision str := .inr (.inl hnul)
  have hlabel : switchLabel (ascii 's') = .string := by decide
  have htake : takeArg hasMagnitude (ascii 's') Locals.reset (.ptr p str :: ap) = some ap := by
    rw [takeArg, hlabel]
    exact if_pos hreadable
  rw [takeArgs, applyFlags]
  simp only [Option.bind_eq_bind, Option.bind_some, htake]

/-- A call whose arguments are all there returns. -/
theorem cprintf_returns {fmt : List Byte} (hnul : 0 ∉ fmt) {args rest : List Arg}
    (hargs : takeArgs hasMagnitude (parse fmt) args = some rest) (st : Console) :
    ∃ r, cprintf (cstr fmt) args st = some r := by
  obtain ⟨s', hs'⟩ := runItems_some putch (convert_returns putch) hargs (st, (0 : Int))
  refine ⟨(s'.2, s'.1), ?_⟩
  rw [cprintf, vcprintf, vprintfmt, vprintfmtWith_cstr putch _ hnul, hs']
  rfl

/-- What the return value is for: `cprintf` returns the number of characters
it passes to `cputchar`, and so does `snprintf` with any buffer. -/
def CountsOutput (fmt : List Byte) (args : List Arg) (out : List Word) : Prop :=
  ∀ (st : Console), cprintf fmt args st = some ((out.length : Int), feed cputchar out st) ∧
    ∀ (m : Memory) (buf n : Nat), buf ≠ 0 → 1 ≤ n → buf + n ≤ 4294967296 →
      ∃ m', snprintf m buf n fmt args = some ((out.length : Int), m')

/-- A console that is given something to print. -/
def idle : Console := ⟨fun _ => 0, fun _ _ => 0xFF, [], .cga, 0⟩

/-- The return value counts the output exactly when there is none: the format
is a sequence of `%s` directives, each of an empty text without a width. -/
theorem cprintf_counts_iff {fmt : List Byte} (hnul : 0 ∉ fmt) {args rest : List Arg}
    {out : List Word} (hstream : stream (cstr fmt) args = some (rest, out)) :
    CountsOutput (cstr fmt) args out ↔ Silent (parse fmt) args := by
  rw [← stream_nil_iff hnul hstream]
  constructor
  · intro hcounts
    have hcall := (hcounts idle).1
    rw [cprintf_eq hstream] at hcall
    have hlength := congrArg Prod.fst (Option.some.inj hcall)
    exact List.length_eq_zero_iff.mp (Int.ofNat.inj hlength).symm
  · rintro rfl st
    constructor
    · exact cprintf_eq hstream st
    · intro m buf n hbuf hn hroom
      have hcall := vsnprintf_eq m hbuf hn hroom hstream
      rw [int32_of_range (by decide) (by decide)] at hcall
      exact ⟨_, hcall⟩

/-- An empty string printed with `%s` is counted. -/
theorem cprintf_counts_iff_empty :
    CountsOutput (cstr (bytes "%s")) [.ptr 0xF0100000 (cstr [])] [] := by
  have hsilent : Silent (parse (bytes "%s")) [.ptr 0xF0100000 (cstr [])] :=
    ⟨Locals.reset, _, _, _, _, rfl, rfl, rfl, ⟨by decide, Or.inr rfl⟩, trivial⟩
  have hstream : stream (cstr (bytes "%s")) [.ptr 0xF0100000 (cstr [])] = some ([], []) := by decide
  exact (cprintf_counts_iff (by decide) hstream).mpr hsilent

/-- One character is printed, and one is what `snprintf` returns, but the
return value of `cprintf` is zero. -/
theorem cprintf_letter_not_counted :
    stream (cstr (bytes "a")) [] = some ([], [0x61]) ∧
      cprintf (cstr (bytes "a")) [] idle = some (0, cputchar 0x61 idle) ∧
      (snprintf (fun _ => 0) 4096 8 (cstr (bytes "a")) []).map Prod.fst = some 1 ∧
      ¬ CountsOutput (cstr (bytes "a")) [] [0x61] := by
  have hstream : stream (cstr (bytes "a")) [] = some ([], [0x61]) := by decide
  refine ⟨hstream, cprintf_eq hstream idle, by decide, ?_⟩
  intro hcounts
  have hcall := (hcounts idle).1
  rw [cprintf_eq hstream] at hcall
  exact absurd (congrArg Prod.fst (Option.some.inj hcall)) (by decide)

end JOSKernel.Kern.Printf
