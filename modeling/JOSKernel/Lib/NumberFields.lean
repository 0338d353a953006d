import JOSKernel.Lib.FormatText
import JOSKernel.Lib.SilentFormat

/-!
# Numbers in fields

A sign and a `0x` prefix are printed before `printnum` pads the digits, so the
field width counts the digits alone and the padding stands behind the sign or
prefix.  The `-` flag is a padding character like any other there.
-/

namespace JOSKernel.Lib.FormatFields

open JOSKernel.General.MachineInt
open JOSKernel.General.Positional
open JOSKernel.Lib.FormatText
open JOSKernel.Lib.NumberText
open JOSKernel.Lib.Printfmt
open JOSKernel.Lib.StringRoutines

/-! ## One directive -/

/-- The format of one directive: its flag text and its conversion. -/
def directive (text : List Byte) (ch : Byte) : List Byte := ascii '%' :: (text ++ [ch])

/-- A character that ends an escape as a conversion. -/
def isConversion (ch : Byte) : Bool := !isFlag ch && switchLabel ch != .default

theorem stream_flags {text : List Byte} (htext : ∀ b ∈ text, isFlag b = true) {ch : Byte}
    (hch : isConversion ch = true) (ap : List Arg) :
    stream (cstr (directive text ch)) ap =
      (applyFlags (flagsWith none text) Locals.reset ap).bind fun f =>
        convert record (printfmt record) ch f.1 f.2 [] := by
  rw [isConversion, Bool.and_eq_true, Bool.not_eq_true', bne_iff_ne] at hch
  have hparse : parse (directive text ch) = [.directive (flagsWith none text) ch] :=
    parse_directive htext hch.1 hch.2 []
  have hnul : 0 ∉ directive text ch := by
    intro hmem
    rcases List.mem_cons.mp hmem with hpercent | hmem
    · exact absurd hpercent (by decide)
    · rcases List.mem_append.mp hmem with htextmem | hlast
      · have hflag := htext 0 htextmem
        rw [nul_not_flag] at hflag
        cases hflag
      · rw [← List.mem_singleton.mp hlast] at hch
        exact hch.2 (by decide)
  exact stream_directive hnul hparse ap

theorem map_ofChar_inj {text text' : List Byte} :
    text.map ofChar = text'.map ofChar ↔ text = text' :=
  List.map_inj_right fun b b' h => by
    rw [← ofChar_setWidth b, h, ofChar_setWidth]

/-! ## Sign, prefix and digits -/

/-- What a numeric conversion makes of its argument: the sign or prefix, the
digits, and the arguments left over. -/
def numberParts (ch : Byte) (lflag : Int) (ap : List Arg) :
    Option (List Byte × List Byte × List Arg) :=
  match switchLabel ch with
  | .decimal => do
      let (num, ap) ← getint ap lflag
      return (if num.toInt < 0 then bytes "-" else [], numeralText decimal num.toInt.natAbs, ap)
  | .unsigned => do
      let (num, ap) ← getuint ap lflag
      return ([], numeralText decimal num.toNat, ap)
  | .octal => do
      let (num, ap) ← getuint ap lflag
      return ([], numeralText octal num.toNat, ap)
  | .pointer => do
      let (p, ap) ← vaWord ap
      return (bytes "0x", numeralText hexadecimal p.toNat, ap)
  | .hex => do
      let (num, ap) ← getuint ap lflag
      return ([], numeralText hexadecimal num.toNat, ap)
  | _ => none

/-- The padding that `printnum` puts before `digits`. -/
def numberPadding (l : Locals) (digits : List Byte) : List Byte :=
  List.replicate (int32 (l.width - digits.length)).toNat l.padc

theorem number_field (num : BitVec 64) (base : Base) (l : Locals) (pre : List Byte) :
    number record num base l (pre.map ofChar) =
      (pre ++ numberPadding l (numeralText base num.toNat) ++
        numeralText base num.toNat).map ofChar := by
  rw [number, printnum_eq_feed, feed_record, numberPadding]
  simp

/-- A numeric conversion as a number printed behind its sign or prefix. -/
theorem numberParts_eq {ch : Byte} {lflag : Int} {ap rest : List Arg} {pre digits : List Byte}
    (hparts : numberParts ch lflag ap = some (pre, digits, rest)) :
    ∃ (num : BitVec 64) (base : Base), digits = numeralText base num.toNat ∧
      ∀ l : Locals, l.lflag = lflag → convert record (printfmt record) ch l ap [] =
        some (rest, number record num base l (pre.map ofChar)) := by
  rw [numberParts] at hparts
  cases hlabel : switchLabel ch with
  | decimal =>
      rw [hlabel] at hparts
      obtain ⟨⟨num, ap'⟩, hget, hparts⟩ := Option.bind_eq_some_iff.mp hparts
      cases hparts
      refine ⟨if num.toInt < 0 then -num else num, decimal, by rw [toNat_signed], ?_⟩
      rintro l rfl
      rw [convert, hlabel]
      dsimp only
      rw [hget]
      simp only [Option.bind_eq_bind, Option.bind_some]
      split
      · rfl
      · rfl
  | unsigned | octal | hex =>
      rw [hlabel] at hparts
      obtain ⟨⟨num, ap'⟩, hget, hparts⟩ := Option.bind_eq_some_iff.mp hparts
      cases hparts
      refine ⟨num, _, rfl, ?_⟩
      rintro l rfl
      rw [convert, hlabel]
      dsimp only
      rw [hget]
      rfl
  | pointer =>
      rw [hlabel] at hparts
      obtain ⟨⟨p, ap'⟩, hget, hparts⟩ := Option.bind_eq_some_iff.mp hparts
      cases hparts
      refine ⟨p.setWidth 64, hexadecimal, by rw [BitVec.toNat_setWidth_of_le (by decide)], ?_⟩
      intro l _
      rw [convert, hlabel]
      dsimp only
      rw [hget]
      rfl
  | _ =>
      rw [hlabel] at hparts
      cases hparts

/-- Whatever the flags, the padding stands between the sign or prefix and the
digits and does not count the former. -/
theorem convert_number {ch : Byte} {l : Locals} {ap rest : List Arg} {pre digits : List Byte}
    (hparts : numberParts ch l.lflag ap = some (pre, digits, rest)) :
    convert record (printfmt record) ch l ap [] =
      some (rest, (pre ++ numberPadding l digits ++ digits).map ofChar) := by
  obtain ⟨num, base, rfl, hconvert⟩ := numberParts_eq hparts
  rw [hconvert l rfl, number_field]

/-- Without a width the sign or prefix and the digits stand alone. -/
theorem convert_number_unpadded {ch : Byte} {l : Locals} (hwidth : l.width = -1)
    {ap rest : List Arg} {pre digits : List Byte}
    (hparts : numberParts ch l.lflag ap = some (pre, digits, rest)) :
    convert record (printfmt record) ch l ap [] = some (rest, (pre ++ digits).map ofChar) := by
  obtain ⟨num, base, hdigits, _⟩ := numberParts_eq hparts
  have hlength := digits_length base num
  rw [← hdigits] at hlength
  have hnone : numberPadding l digits = [] := by
    rw [numberPadding, hwidth, int32_of_range (by omega) (by omega), List.replicate_eq_nil_iff]
    omega
  rw [convert_number hparts, hnone, List.append_nil]

theorem isConversion_of_parts {ch : Byte} {lflag : Int} {ap : List Arg}
    {r : List Byte × List Byte × List Arg} (hparts : numberParts ch lflag ap = some r) :
    isConversion ch = true := by
  rw [numberParts] at hparts
  rw [isConversion, isFlag]
  cases hlabel : switchLabel ch <;> rw [hlabel] at hparts
  case decimal | unsigned | octal | pointer | hex => rfl
  all_goals cases hparts

/-! ## Padding on the left -/

/-- A number in a field of at least `width` characters: zeros fill it behind
the sign or prefix, any other character before the whole text. -/
def fieldText (padc : Byte) (width : Nat) (pre digits : List Byte) : List Byte :=
  let fill := List.replicate (width - (pre ++ digits).length) padc
  if padc = ascii '0' then pre ++ fill ++ digits else fill ++ pre ++ digits

/-- Digits that fill the width leave nothing to fill, with or without what
stands before them. -/
theorem nothing_to_fill {width : Int} {digits : List Byte} (h : width ≤ digits.length)
    (pre : List Byte) :
    width.toNat - digits.length = 0 ∧ width.toNat - (pre ++ digits).length = 0 := by
  rw [List.length_append]
  omega

theorem fieldText_length (padc : Byte) (width : Nat) (pre digits : List Byte) :
    (fieldText padc width pre digits).length = max width (pre ++ digits).length := by
  rw [fieldText]
  split
  · simp only [List.length_append, List.length_replicate]
    omega
  · simp only [List.length_append, List.length_replicate]
    omega

section Number

variable {text : List Byte} {ap args rest : List Arg} {l : Locals} {ch : Byte}
variable {pre digits : List Byte}

/-- What a numeric directive prints, for a width that is not negative. -/
theorem stream_number (htext : ∀ b ∈ text, isFlag b = true)
    (hflags : applyFlags (flagsWith none text) Locals.reset ap = some (l, args))
    (hwidth : 0 ≤ l.width) (hparts : numberParts ch l.lflag args = some (pre, digits, rest)) :
    stream (cstr (directive text ch)) ap =
      some (rest,
        (pre ++ List.replicate (l.width.toNat - digits.length) l.padc ++ digits).map ofChar) := by
  obtain ⟨num, base, hdigits, _⟩ := numberParts_eq hparts
  have hlength := digits_length base num
  rw [← hdigits] at hlength
  have hhigh := (applyFlags_int hflags).1.2
  have hfill : (int32 (l.width - digits.length)).toNat = l.width.toNat - digits.length := by
    rw [int32_of_range (by omega) (by omega)]
    omega
  rw [stream_flags htext (isConversion_of_parts hparts), hflags, Option.bind_some,
    convert_number hparts, numberPadding, hfill]

theorem stream_number_eq_iff (htext : ∀ b ∈ text, isFlag b = true)
    (hflags : applyFlags (flagsWith none text) Locals.reset ap = some (l, args))
    (hwidth : 0 ≤ l.width) (hparts : numberParts ch l.lflag args = some (pre, digits, rest))
    (out : List Byte) :
    stream (cstr (directive text ch)) ap = some (rest, out.map ofChar) ↔
      pre ++ List.replicate (l.width.toNat - digits.length) l.padc ++ digits = out := by
  rw [stream_number htext hflags hwidth hparts]
  simp only [Option.some.injEq, Prod.mk.injEq, true_and]
  exact map_ofChar_inj

/-- A numeric directive with a width fills its field, with spaces before the
whole text or zeros before the digits, exactly when there is no sign or prefix
or nothing to fill. -/
theorem stream_padded_number_iff (htext : ∀ b ∈ text, isFlag b = true)
    (hflags : applyFlags (flagsWith none text) Locals.reset ap = some (l, args))
    (hwidth : 1 ≤ l.width)
    (hparts : numberParts ch l.lflag args = some (pre, digits, rest)) :
    stream (cstr (directive text ch)) ap =
        some (rest, (fieldText l.padc l.width.toNat pre digits).map ofChar) ↔
      pre = [] ∨ l.width ≤ digits.length := by
  rw [stream_number_eq_iff htext hflags (by omega) hparts]
  constructor
  · intro heq
    have hlength := congrArg List.length heq
    rw [fieldText_length] at hlength
    simp only [List.length_append, List.length_replicate] at hlength
    rw [← List.length_eq_zero_iff]
    omega
  · rintro (rfl | hnarrow)
    · rw [fieldText]
      split
      · rfl
      · simp
    · obtain ⟨hnone, hfull⟩ := nothing_to_fill hnarrow pre
      rw [fieldText, hnone, hfull]
      split
      · rfl
      · simp

end Number

theorem numberParts_minus_42 :
    numberParts (ascii 'd') 0 [.int (-42)] = some (bytes "-", bytes "42", []) := by
  decide

/-- The field of a negative number comes out one character too wide, with its
spaces behind the sign. -/
theorem stream_minus_42 :
    stream (cstr (bytes "%5d")) [.int (-42)] = some ([], (bytes "-   42").map ofChar) ∧
      fieldText (ascii ' ') 5 (bytes "-") (bytes "42") = bytes "  -42" := by
  refine ⟨?_, by decide⟩
  exact stream_number (show ∀ b ∈ bytes "5", isFlag b = true by decide) rfl (by decide)
    numberParts_minus_42

/-- Zeros behind a prefix are counted in the same way, but a field that the
digits fill has none. -/
theorem stream_padded_number_full :
    stream (cstr (bytes "%02p")) [.int 42] = some ([], (bytes "0x2a").map ofChar) := by
  have hfield := stream_padded_number_iff (show ∀ b ∈ bytes "02", isFlag b = true by decide) rfl
    (by decide) (show numberParts (ascii 'p') 0 [.int 42] = some (bytes "0x", bytes "2a", [])
      by decide)
  exact hfield.mpr (Or.inr (by decide))

/-! ## Padding on the right -/

theorem digits_not_space {base : Base} {num : BitVec 64} :
    ascii ' ' ∉ numeralText base num.toNat := by
  intro hmem
  obtain ⟨d, hd, hdigit⟩ := List.mem_map.mp hmem
  have hlt := Nat.lt_of_lt_of_le (numeral_lt base.two_le _ d hd) base.le_sixteen
  exact (digit_not_blank hlt).1 hdigit

theorem minus_mem_flagsWith (number : Option (Int × Byte)) {text : List Byte}
    (hminus : ascii '-' ∈ text) : .minus ∈ flagsWith number text := by
  induction text generalizing number with
  | nil => cases hminus
  | cons ch text ih =>
      have hfirst (heq : ascii '-' = ch) : .minus ∈ labelFlag (switchLabel ch) := by
        rw [← heq]
        exact List.mem_singleton.mpr rfl
      rcases List.mem_cons.mp hminus with hhead | htail
      · subst hhead
        cases number with
        | none => exact List.mem_append_left _ (hfirst rfl)
        | some n => exact List.mem_cons_of_mem _ (List.mem_append_left _ (hfirst rfl))
      · cases number with
        | none =>
            rw [flagsWith]
            split
            · exact ih _ htail
            · exact List.mem_append_right _ (ih _ htail)
        | some n =>
            rw [flagsWith]
            split
            · exact ih _ htail
            · exact List.mem_cons_of_mem _ (List.mem_append_right _ (ih _ htail))

theorem processPrecision_padc (l : Locals) : l.processPrecision.padc = l.padc := by
  rw [Locals.processPrecision]
  split <;> rfl

/-- Behind a `-` flag the padding is `-`, or `0` when a zero flag follows. -/
theorem applyFlags_padc {flags : List Flag} {l l' : Locals} {ap ap' : List Arg}
    (hpad : .minus ∈ flags ∨ l.padc = ascii '-' ∨ l.padc = ascii '0')
    (h : applyFlags flags l ap = some (l', ap')) :
    l'.padc = ascii '-' ∨ l'.padc = ascii '0' := by
  induction flags generalizing l ap with
  | nil =>
      cases h
      exact hpad.resolve_left List.not_mem_nil
  | cons flag flags ih =>
      obtain ⟨r, hfirst, h⟩ := Option.bind_eq_some_iff.mp h
      apply ih _ h
      have hother (hne : Flag.minus ≠ flag) :
          .minus ∈ flags ∨ l.padc = ascii '-' ∨ l.padc = ascii '0' :=
        hpad.imp_left fun hmem => (List.mem_cons.mp hmem).resolve_left hne
      cases flag with
      | minus =>
          cases hfirst
          exact Or.inr (Or.inl rfl)
      | zero =>
          cases hfirst
          exact Or.inr (Or.inr rfl)
      | star =>
          obtain ⟨v, _, hfirst⟩ := Option.bind_eq_some_iff.mp hfirst
          cases hfirst
          rw [processPrecision_padc]
          exact hother (fun heq => nomatch heq)
      | number n =>
          cases hfirst
          rw [processPrecision_padc]
          exact hother (fun heq => nomatch heq)
      | dot | hash | long =>
          cases hfirst
          exact hother (fun heq => nomatch heq)

theorem padc_of_minus {text : List Byte} (hminus : ascii '-' ∈ text) {l : Locals}
    {ap args : List Arg}
    (hflags : applyFlags (flagsWith none text) Locals.reset ap = some (l, args)) :
    l.padc = ascii '-' ∨ l.padc = ascii '0' :=
  applyFlags_padc (Or.inl (minus_mem_flagsWith none hminus)) hflags

section Number

variable {text : List Byte} {ap args rest : List Arg} {l : Locals} {ch : Byte}
variable {pre digits : List Byte}

/-- The padding of a number is never on its right. -/
theorem stream_left_number_iff (htext : ∀ b ∈ text, isFlag b = true)
    (hflags : applyFlags (flagsWith none text) Locals.reset ap = some (l, args))
    (hwidth : 0 ≤ l.width) (hpadc : l.padc ≠ ascii ' ')
    (hparts : numberParts ch l.lflag args = some (pre, digits, rest)) :
    stream (cstr (directive text ch)) ap =
        some (rest, (pre ++ digits ++
          List.replicate (l.width.toNat - (pre ++ digits).length) (ascii ' ')).map ofChar) ↔
      l.width ≤ digits.length := by
  obtain ⟨num, base, hdigits, _⟩ := numberParts_eq hparts
  have hspace : ascii ' ' ∉ digits := hdigits ▸ digits_not_space
  rw [stream_number_eq_iff htext hflags hwidth hparts]
  constructor
  · intro heq
    rw [List.append_assoc, List.append_assoc, List.append_cancel_left_eq] at heq
    by_contra hwide
    have hlength := congrArg List.length heq
    simp only [List.length_append, List.length_replicate] at hlength
    have hmem : ascii ' ' ∈ List.replicate (l.width.toNat - digits.length) l.padc ++ digits := by
      rw [heq, List.mem_append, List.mem_replicate, List.length_append]
      exact Or.inr ⟨by omega, rfl⟩
    rcases List.mem_append.mp hmem with hpad | hdigit
    · exact hpadc (List.eq_of_mem_replicate hpad).symm
    · exact hspace hdigit
  · intro hnarrow
    obtain ⟨hnone, hfull⟩ := nothing_to_fill hnarrow pre
    rw [hnone, hfull]
    simp

end Number

end JOSKernel.Lib.FormatFields
