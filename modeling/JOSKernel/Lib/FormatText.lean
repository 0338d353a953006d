import JOSKernel.Lib.FormatAppend
import JOSKernel.Lib.NumberText

/-!
# Formats and the texts they print

A format prints a text when it uses up its arguments and emits the characters
of the text as `char`s.  Formats in a row print their texts in a row, so the
text of a long format is put together from the texts of its directives.
-/

namespace JOSKernel.Lib.FormatText

open JOSKernel.General.MachineInt
open JOSKernel.Lib.NumberText
open JOSKernel.Lib.Printfmt
open JOSKernel.Lib.StringRoutines

/-! ## Copying a string -/

/-- The character that `%s` shows for a byte: under `#`, a question mark for
one that is not printable. -/
def shown (altflag : Bool) (ch : Byte) : Word :=
  if altflag ∧ ((ofChar ch).toInt < (ascii ' ').toNat ∨ (ofChar ch).toInt > (ascii '~').toNat) then
    ofChar (ascii '?')
  else ofChar ch

theorem shown_false : shown false = ofChar := by
  funext ch
  rw [shown, if_neg]
  rintro ⟨hfalse, _⟩
  cases hfalse

/-- The byte `stop` ends a copy of `length` bytes: it is the NUL, or the
precision is spent on the bytes before it. -/
def Stops (precision : Int) (length : Nat) (stop : Byte) : Prop :=
  stop = 0 ∧ (precision < 0 ∨ length ≤ precision) ∨ precision = length

/-- The loop copies a text up to its NUL, or up to the byte at which the
precision is spent. -/
theorem copyLoop_shown (altflag : Bool) {text : List Byte} (hnul : 0 ∉ text) {stop : Byte}
    (rest : List Byte) {width precision : Int} (hwidth : int32 width = width)
    (hstop : Stops precision text.length stop) (seen : List Word) :
    copyLoop record altflag (text ++ stop :: rest) width precision seen =
      some (int32 (width - text.length), seen ++ text.map (shown altflag)) := by
  induction text generalizing width precision seen with
  | nil =>
      have hend : copyLoop record altflag (stop :: rest) width precision seen =
          some (width, seen) := by
        rw [copyLoop]
        split
        · rfl
        · rename_i hne
          rcases hstop with ⟨hzero, _⟩ | hspent
          · exact absurd hzero hne
          · rw [List.length_nil] at hspent
            rw [if_neg (by omega)]
      rw [List.nil_append, hend, List.length_nil, List.map_nil, List.append_nil]
      rw [show width - ((0 : Nat) : Int) = width by omega, hwidth]
  | cons ch text ih =>
      simp only [List.mem_cons, not_or] at hnul
      rw [Stops, List.length_cons] at hstop
      have hgoes : precision < 0 ∨ precision - 1 ≥ 0 := by omega
      have hcount : int32 (int32 (width - 1) - text.length) =
          int32 (width - (ch :: text).length) := by
        rw [List.length_cons]
        apply int32_congr
        have := int32_emod (width - 1)
        omega
      have hnext : Stops (if precision < 0 then precision else precision - 1) text.length stop := by
        rcases hstop with ⟨hzero, hbound⟩ | hspent
        · refine Or.inl ⟨hzero, ?_⟩
          split <;> omega
        · rw [if_neg (by omega)]
          exact Or.inr (by omega)
      rw [List.cons_append, copyLoop, if_neg (Ne.symm hnul.1), if_pos hgoes]
      dsimp only
      rw [ih hnul.2 (int32_congr (int32_emod _)) hnext, hcount]
      simp [record, shown]

/-- Without padding in front, the copy is followed by the spaces that are left
of the width. -/
theorem putString_shown {text : List Byte} (hnul : 0 ∉ text) {stop : Byte} (rest : List Byte)
    {l : Locals} (hlow : -2147483648 ≤ l.width) (hhigh : l.width < 2147483648)
    (hleft : ¬ (l.width > 0 ∧ l.padc ≠ ascii '-')) (hstop : Stops l.precision text.length stop) :
    putString record l (text ++ stop :: rest) [] =
      some (text.map (shown l.altflag) ++
        List.replicate (int32 (l.width - text.length)).toNat (ofChar (ascii ' '))) := by
  have hcopy := copyLoop_shown l.altflag hnul rest (int32_of_range hlow hhigh) hstop []
  rw [putString, padString, if_neg hleft]
  simp only [Option.bind_eq_bind, Option.bind_some, hcopy, Option.pure_def, putMany_record,
    List.nil_append]

/-- Without a width to fill, the counter only matters once it has wrapped. -/
theorem putString_text {text : List Byte} (hnul : 0 ∉ text) {stop : Byte} (rest : List Byte)
    {l : Locals} (haltflag : l.altflag = false) (hlow : -2147483648 ≤ l.width) (hwidth : l.width ≤ 0)
    (hstop : l.precision < 0 ∧ stop = 0 ∨ l.precision = text.length) :
    putString record l (text ++ stop :: rest) [] =
      some (text.map ofChar ++
        List.replicate (int32 (l.width - text.length)).toNat (ofChar (ascii ' '))) := by
  have hstops : Stops l.precision text.length stop := by
    rcases hstop with ⟨hnone, hzero⟩ | hspent
    · exact Or.inl ⟨hzero, Or.inl hnone⟩
    · exact Or.inr hspent
  rw [putString_shown hnul rest hlow (by omega) (by omega) hstops, haltflag, shown_false]

theorem convert_string_arg (p : Word) (str : List Byte) (rest : List Arg) (l : Locals) :
    convert record (printfmt record) (ascii 's') l (.ptr p str :: rest) [] =
      (putString record l (if p = 0 then cstr (bytes "(null)") else str) []).map
        fun out => (rest, out) := by
  have hlabel : switchLabel (ascii 's') = .string := by decide
  rw [convert, hlabel]
  simp only [vaPtr, Option.bind_eq_bind, Option.bind_some, Option.pure_def]
  cases putString record l (if p = 0 then cstr (bytes "(null)") else str) [] <;> rfl

theorem convert_string {p : Word} (hp : p ≠ 0) (str : List Byte) (l : Locals) :
    convert record (printfmt record) (ascii 's') l [.ptr p str] [] =
      (putString record l str []).map fun out => ([], out) := by
  rw [convert_string_arg, if_neg hp]

/-- `%s` counts the `int` width down from `-1`, and fills what is left of it
with spaces. -/
theorem stream_string {p : Word} (hp : p ≠ 0) {text : List Byte} (hnul : 0 ∉ text) :
    stream (cstr (bytes "%s")) [.ptr p (cstr text)] =
      some ([], text.map ofChar ++
        List.replicate (int32 (-1 - text.length)).toNat (ofChar (ascii ' '))) := by
  rw [stream_directive (by decide) (show parse _ = [.directive [] (ascii 's')] from rfl),
    applyFlags, Option.bind_some, convert_string hp, cstr]
  rw [putString_text hnul [] (l := Locals.reset) rfl (by decide) (by decide)
    (Or.inl ⟨by decide, rfl⟩)]
  rfl

/-! ## Texts of formats -/

/-- The format with these arguments prints the text. -/
structure Prints (fmt : List Byte) (args : List Arg) (text : List Byte) : Prop where
  nul : 0 ∉ fmt
  complete : Complete fmt
  prints : eval (printfmt record) (parse fmt) args = some ([], text.map ofChar)

theorem endsOutside_append {inside : Bool} {fmt : List Byte} (hends : endsOutside inside fmt = true)
    (rest : List Byte) : endsOutside inside (fmt ++ rest) = endsOutside false rest := by
  induction fmt generalizing inside with
  | nil =>
      cases inside with
      | false => rfl
      | true => cases hends
  | cons ch fmt ih =>
      cases inside with
      | false => exact ih hends
      | true => exact ih hends

/-- A character that literal text of a format can have. -/
def isPlain (b : Byte) : Bool := b != 0 && b != ascii '%' && b.toNat < 128

theorem isPlain_iff (b : Byte) : isPlain b = true ↔ b ≠ 0 ∧ b ≠ ascii '%' ∧ b.toNat < 128 := by
  simp only [isPlain, Bool.and_eq_true, bne_iff_ne, decide_eq_true_eq, and_assoc]

theorem endsOutside_text {text : List Byte} (hpercent : ascii '%' ∉ text) :
    endsOutside false text = true := by
  induction text with
  | nil => rfl
  | cons ch text ih =>
      simp only [List.mem_cons, not_or] at hpercent
      rw [endsOutside, decide_eq_false (Ne.symm hpercent.1)]
      exact ih hpercent.2

theorem ofUChar_eq_ofChar_iff (b : Byte) : ofUChar b = ofChar b ↔ b.toNat < 128 := by
  revert b
  decide

/-- Seven-bit text, and no other, is the same through both `char` types. -/
theorem map_ofUChar_eq_iff (text : List Byte) :
    text.map ofUChar = text.map ofChar ↔ ∀ b ∈ text, b.toNat < 128 := by
  rw [List.map_inj_left]
  exact forall₂_congr fun b _ => ofUChar_eq_ofChar_iff b

/-- Text without a `%` is emitted as it is. -/
theorem stream_text {text : List Byte} (hnul : 0 ∉ text) (hpercent : ascii '%' ∉ text) :
    stream (cstr text) [] = some ([], text.map ofUChar) := by
  have hparse := parse_literals text [] hpercent
  rw [List.append_nil] at hparse
  rw [stream_cstr hnul, hparse, eval_literals, show parse [] = [] from rfl, eval_nil]
  simp

namespace Prints

variable {fmt fmt' : List Byte} {args args' : List Arg} {text text' : List Byte}

theorem stream_eq (h : Prints fmt args text) :
    stream (cstr fmt) args = some ([], text.map ofChar) :=
  (stream_cstr h.nul args).trans h.prints

/-- Formats in a row print their texts in a row. -/
theorem append (h : Prints fmt args text) (h' : Prints fmt' args' text') :
    Prints (fmt ++ fmt') (args ++ args') (text ++ text') where
  nul := fun hmem => (List.mem_append.mp hmem).elim h.nul h'.nul
  complete := (endsOutside_append h.complete fmt').trans h'.complete
  prints := by
    rw [parse_append h.complete, eval_append, eval_extra args' _ h.prints, Option.bind_some,
      List.nil_append, h'.prints, List.map_append]
    rfl

theorem plain (h : text.all isPlain = true) : Prints text [] text := by
  have hplain : ∀ b ∈ text, b ≠ 0 ∧ b ≠ ascii '%' ∧ b.toNat < 128 := fun b hb =>
    (isPlain_iff b).mp (List.all_eq_true.mp h b hb)
  have hnul : 0 ∉ text := fun hmem => (hplain 0 hmem).1 rfl
  have hpercent : ascii '%' ∉ text := fun hmem => (hplain _ hmem).2.1 rfl
  refine ⟨hnul, endsOutside_text hpercent, ?_⟩
  rw [← stream_cstr hnul, stream_text hnul hpercent,
    (map_ofUChar_eq_iff text).mpr fun b hb => (hplain b hb).2.2]

/-- A format that is one directive. -/
theorem directive {flags : List Flag} {ch : Byte} {l : Locals} {rest : List Arg} (hnul : 0 ∉ fmt)
    (hcomplete : Complete fmt) (hparse : parse fmt = [.directive flags ch])
    (hflags : applyFlags flags Locals.reset args = some (l, rest))
    (hconvert : convert record (printfmt record) ch l rest [] = some ([], text.map ofChar)) :
    Prints fmt args text where
  nul := hnul
  complete := hcomplete
  prints := by
    rw [← stream_cstr hnul, stream_directive hnul hparse, hflags]
    exact hconvert

theorem signed (n : Word) : Prints (bytes "%d") [.int n] (signedText n.toInt) :=
  directive (by decide) (by decide) (show parse _ = [.directive [] (ascii 'd')] from rfl) rfl
    (convert_signed n Locals.reset rfl (by decide))

theorem string {p : Word} (hp : p ≠ 0) (hnul : 0 ∉ text) (hlength : text.length < 2147483648)
    (rest : List Byte) : Prints (bytes "%s") [.ptr p (text ++ 0 :: rest)] text := by
  refine directive (by decide) (by decide)
    (show parse _ = [.directive [] (ascii 's')] from rfl) rfl ?_
  have hspaces : (int32 (Locals.reset.width - text.length)).toNat = 0 := by
    rw [show Locals.reset.width = -1 from rfl, int32_of_range (by omega) (by omega)]
    omega
  rw [convert_string hp, putString_text hnul rest rfl (by decide) (by decide)
    (Or.inl ⟨by decide, rfl⟩), hspaces, List.replicate_zero, List.append_nil]
  rfl

/-- The precision given by `*` is the length of the text. -/
theorem string_star {p : Word} (hp : p ≠ 0) (hnul : 0 ∉ text) (hlength : text.length < 2147483648)
    (stop : Byte) (rest : List Byte) :
    Prints (bytes "%.*s") [.int (BitVec.ofInt 32 text.length), .ptr p (text ++ stop :: rest)]
      text := by
  have hprecision : (BitVec.ofInt 32 text.length).toInt = text.length := by
    rw [toInt_ofInt_word, int32_of_range (by omega) (by omega)]
  have hspaces : (int32 (0 - text.length)).toNat = 0 := by
    rw [int32_of_range (by omega) (by omega)]
    omega
  have hflags : applyFlags [.dot, .star] Locals.reset
      [.int (BitVec.ofInt 32 text.length), .ptr p (text ++ stop :: rest)] =
        some ({ Locals.reset with width := 0, precision := (BitVec.ofInt 32 text.length).toInt },
          [.ptr p (text ++ stop :: rest)]) := rfl
  refine directive (by decide) (by decide)
    (show parse _ = [.directive [.dot, .star] (ascii 's')] from rfl) hflags ?_
  rw [convert_string hp, putString_text hnul rest rfl (show -2147483648 ≤ (0 : Int) by decide)
    (Int.le_refl 0) (Or.inr hprecision), hspaces, List.replicate_zero, List.append_nil]
  rfl

end Prints

/-- The eight hexadecimal digits of a machine word. -/
def wordText (n : Word) : List Byte :=
  List.replicate (8 - (numeralText hexadecimal n.toNat).length) (ascii '0') ++
    numeralText hexadecimal n.toNat

theorem Prints.word (n : Word) : Prints (bytes "%08x") [.int n] (wordText n) := by
  have hlength : (numeralText hexadecimal n.toNat).length ≤ 8 :=
    numeralText_length_le (by decide) n.isLt
  have hpad : (int32 (8 - (numeralText hexadecimal n.toNat).length)).toNat =
      8 - (numeralText hexadecimal n.toNat).length := by
    rw [int32_of_range (by omega) (by omega)]
    omega
  have hlabel : switchLabel (ascii 'x') = .hex := by decide
  have height : pushDigit 0 (ascii '8') = 8 := by decide
  have hflags : applyFlags [.zero, .number (pushDigit 0 (ascii '8'))] Locals.reset [.int n] =
      some ({ Locals.reset with padc := ascii '0', width := 8 }, [.int n]) := by
    rw [height]
    rfl
  have hgetuint : getuint [.int n] Locals.reset.lflag = some (n.setWidth 64, []) := rfl
  refine directive (by decide) (by decide)
    (show parse _ = [.directive [.zero, .number (pushDigit 0 (ascii '8'))] (ascii 'x')] from rfl)
    hflags ?_
  rw [convert, hlabel]
  simp only [hgetuint, Option.bind_eq_bind, Option.bind_some, Option.pure_def, number]
  rw [printnum_eq_feed, feed_record, BitVec.toNat_setWidth_of_le (by decide), hpad, wordText,
    List.map_append, List.map_replicate, List.nil_append]

end JOSKernel.Lib.FormatText
