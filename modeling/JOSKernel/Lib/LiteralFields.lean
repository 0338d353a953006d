import JOSKernel.Lib.StringFields

/-!
# Widths and precisions written in the format

A number in a flag text reads as the number that an argument would give, with
one exception: `0` is always the zero flag, so a precision written as `0` is no
precision at all.
-/

namespace JOSKernel.Lib.FormatFields

open JOSKernel.General.MachineInt
open JOSKernel.General.Positional
open JOSKernel.Lib.FormatText
open JOSKernel.Lib.NumberText
open JOSKernel.Lib.Printfmt
open JOSKernel.Lib.StringRoutines

/-! ## Numerals among the flags -/

/-- The character of a decimal digit, and what the digit loop makes of it. -/
theorem digit_decimal {d : Nat} (h : d < 10) :
    isDigit (digit d) = true ∧ isFlag (digit d) = true ∧ (digit d).toNat = 48 + d := by
  revert d
  decide

theorem label_digit {d : Nat} (h : d < 10) (hpos : 1 ≤ d) : switchLabel (digit d) = .digit := by
  revert d
  decide

theorem pushDigit_digit (v : Nat) {d : Nat} (h : d < 10) :
    pushDigit (int32 v) (digit d) = int32 ((v * 10 + d : Nat) : Int) := by
  have hzero : (ascii '0').toNat = 48 := rfl
  rw [pushDigit, (digit_decimal h).2.2, hzero]
  apply int32_congr
  have := int32_emod (v : Int)
  omega

/-- The text does not go on with a digit. -/
def DigitFree (text : List Byte) : Prop := ∀ b, text.head? = some b → isDigit b = false

theorem flagsWith_number {text : List Byte} (htext : DigitFree text) (precision : Int) (ch : Byte) :
    flagsWith (some (precision, ch)) text =
      .number (pushDigit precision ch) :: flagsWith none text := by
  cases text with
  | nil => rfl
  | cons next text =>
      have hnext := htext next rfl
      rw [flagsWith, flagsWith, hnext, if_neg (label_ne_digit hnext), if_neg (by decide)]

theorem flagsWith_digits {ds : List Nat} (hds : ∀ d ∈ ds, d < 10) (v : Nat) {d : Nat} (hd : d < 10)
    {text : List Byte} (htext : DigitFree text) :
    flagsWith (some (int32 v, digit d)) (ds.map digit ++ text) =
      .number (int32 (horner 10 v (d :: ds))) :: flagsWith none text := by
  induction ds generalizing v d with
  | nil =>
      rw [List.map_nil, List.nil_append, flagsWith_number htext, pushDigit_digit v hd, horner, horner]
  | cons next ds ih =>
      have hnext := hds next List.mem_cons_self
      rw [List.map_cons, List.cons_append, flagsWith, if_pos (digit_decimal hnext).1,
        pushDigit_digit v hd, ih (fun d hd => hds d (List.mem_cons_of_mem _ hd)) _ hnext]
      rfl

/-- The numeral of a positive `int` is one flag, of that number. -/
theorem flagsWith_numeral {n : Nat} (hpos : 1 ≤ n) (hn : n < 2147483648) {text : List Byte}
    (htext : DigitFree text) :
    flagsWith none (numeralText decimal n ++ text) = .number n :: flagsWith none text := by
  obtain ⟨d, ds, hnumeral, hd⟩ := numeral_cons decimal.two_le hpos
  have hlt := numeral_lt decimal.two_le n
  have hvalue := horner_numeral decimal.two_le n
  rw [hnumeral] at hlt hvalue
  have hdigits := flagsWith_digits (fun d hd => hlt d (List.mem_cons_of_mem _ hd)) 0
    (hlt d List.mem_cons_self) htext
  have hhorner : horner 10 0 (d :: ds) = n := hvalue
  have hzero : int32 ((0 : Nat) : Int) = 0 := by decide
  rw [hhorner, hzero, int32_of_range (by omega) (by omega)] at hdigits
  rw [numeralText, hnumeral, List.map_cons, List.cons_append, flagsWith,
    if_pos (label_digit (hlt d List.mem_cons_self) hd)]
  exact hdigits

theorem numeralText_isFlag (n : Nat) : ∀ b ∈ numeralText decimal n, isFlag b = true := by
  intro b hb
  obtain ⟨d, hd, rfl⟩ := List.mem_map.mp hb
  exact (digit_decimal (numeral_lt decimal.two_le n d hd)).2.1

/-! ## Literal and argument formats -/

section Formats

variable (flags : List Byte)

/-- The directive `%w.ps` with the flags in front of the width. -/
def literalField (w p : Nat) : List Byte :=
  directive (flags ++ (numeralText decimal w ++ ascii '.' :: numeralText decimal p)) (ascii 's')

def starField : List Byte := directive (flags ++ bytes "*.*") (ascii 's')

/-- The directive `%.ps`. -/
def literalPrecision (p : Nat) : List Byte :=
  directive (flags ++ ascii '.' :: numeralText decimal p) (ascii 's')

def starPrecision : List Byte := directive (flags ++ bytes ".*") (ascii 's')

/-- The locals that a literal precision leaves: `0` is the zero flag. -/
def literalLocals (width : Int) (p : Nat) : Locals :=
  if p = 0 then { fieldLocals flags width (-1) with padc := ascii '0' }
  else fieldLocals flags width p

theorem modeLocals_eq : modeLocals flags = fieldLocals flags (-1) (-1) := by
  obtain ⟨_, hwidth, hprecision, _⟩ := modeLocals_fields flags
  have hsame : modeLocals flags = { modeLocals flags with
      width := (modeLocals flags).width, precision := (modeLocals flags).precision } := rfl
  rw [hwidth, hprecision] at hsame
  exact hsame

/-- A dot sets a width that has not been given. -/
theorem applyFlags_dot (width : Int) (text : List Byte) (ap : List Arg) :
    applyFlags (flagsWith none (ascii '.' :: text)) (fieldLocals flags width (-1)) ap =
      applyFlags (flagsWith none text)
        (fieldLocals flags (if width < 0 then 0 else width) (-1)) ap := rfl

theorem digitFree_dot (text : List Byte) : DigitFree (ascii '.' :: text) := by
  intro b hb
  cases hb
  decide

theorem digitFree_nil : DigitFree [] := by
  intro b hb
  cases hb

theorem applyFlags_precision {width : Int} (hwidth : 0 ≤ width) {p : Nat} (hp : p < 2147483648)
    (ap : List Arg) :
    applyFlags (flagsWith none (numeralText decimal p)) (fieldLocals flags width (-1)) ap =
      some (literalLocals flags width p, ap) := by
  rw [literalLocals]
  split
  · rename_i hzero
    subst hzero
    rfl
  · have hnumber := flagsWith_numeral (show 1 ≤ p by omega) hp digitFree_nil
    have hsome : ¬ width < 0 := by omega
    rw [List.append_nil] at hnumber
    rw [hnumber, show flagsWith none [] = [] from rfl]
    simp only [applyFlags, Flag.apply, Option.bind_eq_bind, Option.bind_some,
      Locals.processPrecision, fieldLocals, hsome, if_false]

variable {flags}

theorem applyFlags_literalField (hflags : ∀ b ∈ flags, b ∈ modeFlags) {w p : Nat} (hw : 1 ≤ w)
    (hwhigh : w < 2147483648) (hp : p < 2147483648) (ap : List Arg) :
    applyFlags
        (flagsWith none (flags ++ (numeralText decimal w ++ ascii '.' :: numeralText decimal p)))
        Locals.reset ap =
      some (literalLocals flags w p, ap) := by
  have hsome : ¬ (w : Int) < 0 := by omega
  rw [applyFlags_mode hflags, flagsWith_numeral hw hwhigh (digitFree_dot _), modeLocals_eq]
  change applyFlags (flagsWith none (ascii '.' :: numeralText decimal p))
    (fieldLocals flags w (-1)) ap = _
  rw [applyFlags_dot, if_neg hsome]
  exact applyFlags_precision flags (by omega) hp ap

theorem applyFlags_literalPrecision (hflags : ∀ b ∈ flags, b ∈ modeFlags) {p : Nat}
    (hp : p < 2147483648) (ap : List Arg) :
    applyFlags (flagsWith none (flags ++ ascii '.' :: numeralText decimal p)) Locals.reset ap =
      some (literalLocals flags 0 p, ap) := by
  rw [applyFlags_mode hflags, modeLocals_eq, applyFlags_dot, if_pos (by decide)]
  exact applyFlags_precision flags (Int.le_refl 0) hp ap

theorem applyFlags_starPrecision (hflags : ∀ b ∈ flags, b ∈ modeFlags) (p : Word)
    (rest : List Arg) :
    applyFlags (flagsWith none (flags ++ bytes ".*")) Locals.reset (.int p :: rest) =
      some (fieldLocals flags 0 p.toInt, rest) := by
  rw [applyFlags_mode hflags, modeLocals_eq]
  rfl

end Formats

/-! ## Where the two agree -/

/-- The string is what a precision of no bytes leaves: padding that fills the
width, or at most as many zeros where zeros are the padding. -/
def FillsField (padc : Byte) (width : Nat) (s : List Byte) : Prop :=
  if padc = ascii '0' then ∃ k ≤ width, s = List.replicate k (ascii '0')
  else s = List.replicate width (ascii ' ')

theorem shown_eq_space (altflag : Bool) {b : Byte} :
    shown altflag b = ofChar (ascii ' ') ↔ b = ascii ' ' := by
  revert b altflag
  decide

theorem shown_eq_zero (altflag : Bool) {b : Byte} :
    shown altflag b = ofChar (ascii '0') ↔ b = ascii '0' := by
  revert b altflag
  decide

theorem padMode_cases (flags : List Byte) :
    padMode flags = ascii ' ' ∨ padMode flags = ascii '-' ∨ padMode flags = ascii '0' := by
  induction flags using List.reverseRecOn with
  | nil => exact Or.inl rfl
  | append_singleton flags b ih =>
      rw [padMode, List.foldl_concat]
      split
      · rename_i hb
        exact Or.inr hb
      · exact ih

theorem fillsField_zero (padc : Byte) {s : List Byte} : FillsField padc 0 s ↔ s = [] := by
  rw [FillsField]
  split
  · constructor
    · rintro ⟨k, hk, rfl⟩
      rw [Nat.le_zero.mp hk, List.replicate_zero]
    · rintro rfl
      exact ⟨0, Nat.le_refl 0, rfl⟩
  · rw [List.replicate_zero]

/-- The padding that precision zero leaves. -/
def fillChar (padc : Byte) : Byte := if padc = ascii '0' then ascii '0' else ascii ' '

theorem map_shown_eq_iff (altflag : Bool) (padc : Byte) (s : List Byte) (n : Nat) :
    s.map (shown altflag) = List.replicate n (ofChar (fillChar padc)) ↔
      s = List.replicate n (fillChar padc) := by
  rw [List.eq_replicate_iff, List.eq_replicate_iff, List.length_map, fillChar]
  simp only [List.mem_map, forall_exists_index, and_imp, forall_apply_eq_imp_iff₂]
  split
  · simp only [shown_eq_zero]
  · simp only [shown_eq_space]

/-- The shown string between zeros and spaces, against the padding alone. -/
theorem padded_eq_fill_iff (altflag : Bool) (padc : Byte) {s : List Byte} {width zeros spaces : Nat}
    (hfits : s.length ≤ width → zeros = width - s.length ∧ spaces = 0) :
    List.replicate zeros (ofChar (ascii '0')) ++ s.map (shown altflag) ++
        List.replicate spaces (ofChar (ascii ' ')) =
      List.replicate width (ofChar (fillChar padc)) ↔ FillsField padc width s := by
  constructor
  · intro heq
    have hlength := congrArg List.length heq
    simp only [List.length_append, List.length_map, List.length_replicate] at hlength
    obtain ⟨hzeros, rfl⟩ := hfits (by omega)
    rw [List.replicate_zero, List.append_nil, List.append_eq_replicate_iff, List.length_replicate,
      List.length_map, map_shown_eq_iff] at heq
    obtain ⟨_, hpad, hs⟩ := heq
    rw [FillsField]
    rw [fillChar] at hpad hs
    split
    · rename_i hzero
      rw [if_pos hzero] at hs
      exact ⟨s.length, by omega, hs⟩
    · rename_i hzero
      rw [if_neg hzero] at hpad hs
      have hnone : zeros = 0 :=
        (List.replicate_right_inj'.mp hpad).resolve_right (by decide)
      have hfull : s.length = width := by omega
      rwa [hfull] at hs
  · intro hfills
    have hlength : s.length ≤ width := by
      rw [FillsField] at hfills
      split at hfills
      · obtain ⟨k, hk, rfl⟩ := hfills
        rwa [List.length_replicate]
      · rw [hfills, List.length_replicate]
    obtain ⟨hzeros, rfl⟩ := hfits hlength
    rw [List.replicate_zero, List.append_nil, List.append_eq_replicate_iff, List.length_replicate,
      List.length_map, map_shown_eq_iff, fillChar]
    rw [FillsField] at hfills
    split at hfills
    · obtain ⟨k, hk, rfl⟩ := hfills
      rw [List.length_replicate] at hzeros ⊢
      rename_i hzero
      rw [if_pos hzero]
      exact ⟨by omega, rfl, rfl⟩
    · rename_i hzero
      rw [if_neg hzero]
      rw [hfills, List.length_replicate] at hzeros ⊢
      rw [Nat.sub_self] at hzeros
      rw [hzeros]
      exact ⟨by omega, rfl, rfl⟩

theorem putString_star {flags : List Byte} {w : Nat} (hw : w < 2147483648) {ptr : Word}
    {str s : List Byte} (hs : PointsTo (-1) ptr str s) :
    putString record (fieldLocals flags w 0) (if ptr = 0 then cstr (bytes "(null)") else str) [] =
      some (List.replicate w (ofChar (fillChar (padMode flags)))) := by
  obtain ⟨copied, stop, after, hcopies⟩ := (hs.any 0).copies
  have hnone : copied = [] := by
    rw [← List.length_eq_zero_iff, hcopies.length_eq, copiedLength, if_neg (by decide)]
    exact Nat.min_zero _
  have hcounts : Counts (fieldLocals flags w 0).padc w copied.length := by
    rw [Counts, hnone, List.length_nil]
    split <;> omega
  rw [hcopies.array_eq, putString_field hcopies.no_nul after (l := fieldLocals flags w 0)
    (Int.natCast_nonneg w) (Int.ofNat_lt.mpr hw) (show -2147483648 ≤ (0 : Int) by decide)
    (show (0 : Int) < 2147483648 by decide) hcopies.stops hcounts, fieldLocals_padc, stringField,
    fillChar, hnone]
  have hwidth : (fieldLocals flags w 0).width.toNat = w := Int.toNat_natCast w
  rw [hwidth, List.map_nil, List.length_nil, Nat.sub_zero, List.nil_append, List.append_nil]
  rcases padMode_cases flags with hpad | hpad | hpad
  all_goals
    rw [hpad]
    rfl

/-- A precision written as `0` pads the whole string with zeros. -/
theorem putString_zero {flags : List Byte} {w : Nat} (hw : w < 2147483648) {ptr : Word}
    {str s : List Byte} (hs : PointsTo (-1) ptr str s) :
    ∃ zeros spaces, putString record (literalLocals flags w 0)
        (if ptr = 0 then cstr (bytes "(null)") else str) [] =
      some (List.replicate zeros (ofChar (ascii '0')) ++
        s.map (shown (decide (ascii '#' ∈ flags))) ++
        List.replicate spaces (ofChar (ascii ' '))) ∧
      (s.length ≤ w → zeros = w - s.length ∧ spaces = 0) := by
  obtain ⟨copied, stop, after, hcopies⟩ := hs.copies
  have hall : copied = s := hcopies.copied_eq.trans List.take_length
  have hroom := hcopies.length_lt
  have halt : (literalLocals flags w 0).altflag = decide (ascii '#' ∈ flags) :=
    fieldLocals_altflag flags w (-1)
  rw [hcopies.array_eq, ← halt, ← hall]
  by_cases hpos : 0 < w
  · have hleft : (literalLocals flags w 0).width > 0 ∧ (literalLocals flags w 0).padc ≠ ascii '-' :=
      ⟨Int.natCast_pos.mpr hpos, show ascii '0' ≠ ascii '-' by decide⟩
    have hcount : strnlen (copied ++ stop :: after)
        ((literalLocals flags w 0).precision % 4294967296).toNat = some copied.length :=
      strnlen_copied hcopies.no_nul after (show -2147483648 ≤ (-1 : Int) by decide)
        (show (-1 : Int) < 2147483648 by decide)
        (fun _ => show (copied.length : Int) ≤ -1 + 4294967296 by omega) hcopies.stops
    refine ⟨_, _, putString_padded hcopies.no_nul after hleft hcopies.stops hcount, ?_⟩
    intro hfits
    have hpad : int32 ((w : Int) - copied.length) = (w : Int) - copied.length :=
      int32_of_range (by omega) (by omega)
    change (int32 ((w : Int) - copied.length)).toNat = _ ∧
      (int32 (min (int32 ((w : Int) - copied.length)) 0 - copied.length)).toNat = 0
    rw [hpad, int32_of_range (by omega) (by omega)]
    omega
  · have hnone : w = 0 := by omega
    subst hnone
    refine ⟨0, _, putString_shown hcopies.no_nul after (show -2147483648 ≤ (0 : Int) by decide)
      (show (0 : Int) < 2147483648 by decide) (fun h => absurd h.1 (Int.lt_irrefl 0))
      hcopies.stops, ?_⟩
    intro hfits
    change 0 = 0 - copied.length ∧ (int32 ((0 : Int) - copied.length)).toNat = 0
    rw [int32_of_range (by omega) (by omega)]
    omega

theorem putString_literal_iff {flags : List Byte} {w : Nat} (hw : w < 2147483648) (p : Nat)
    {ptr : Word} {str s : List Byte} (hs : PointsTo (-1) ptr str s) :
    putString record (literalLocals flags w p) (if ptr = 0 then cstr (bytes "(null)") else str) [] =
        putString record (fieldLocals flags w p)
          (if ptr = 0 then cstr (bytes "(null)") else str) [] ↔
      p ≠ 0 ∨ FillsField (padMode flags) w s := by
  by_cases hp : p = 0
  · subst hp
    obtain ⟨zeros, spaces, hzero, hfits⟩ := putString_zero hw hs
    rw [hzero, show ((0 : Nat) : Int) = 0 from rfl, putString_star hw hs, Option.some.injEq,
      padded_eq_fill_iff _ _ hfits]
    simp
  · rw [literalLocals, if_neg hp]
    simp [hp]

theorem stream_string_eq_iff {text text' : List Byte} (htext : ∀ b ∈ text, isFlag b = true)
    (htext' : ∀ b ∈ text', isFlag b = true) {ap ap' rest : List Arg} {l l' : Locals} {ptr : Word}
    {str : List Byte}
    (hflags : applyFlags (flagsWith none text) Locals.reset ap = some (l, .ptr ptr str :: rest))
    (hflags' : applyFlags (flagsWith none text') Locals.reset ap' =
      some (l', .ptr ptr str :: rest)) :
    stream (cstr (directive text (ascii 's'))) ap = stream (cstr (directive text' (ascii 's'))) ap' ↔
      putString record l (if ptr = 0 then cstr (bytes "(null)") else str) [] =
        putString record l' (if ptr = 0 then cstr (bytes "(null)") else str) [] := by
  rw [stream_string_flags htext hflags, stream_string_flags htext' hflags']
  exact (Option.map_injective fun out out' h => (Prod.mk.inj h).2).eq_iff

/-- Widths and precisions print alike from the format and from arguments,
except for a precision of zero: written as `0` it is the zero flag, and then
only a string that looks like its own padding prints alike. -/
theorem stream_literal_iff {flags : List Byte} (hflags : ∀ b ∈ flags, b ∈ modeFlags) {w p : Nat}
    (hw : 1 ≤ w) (hwhigh : w < 2147483648) (hp : p < 2147483648) {ptr : Word} {str s : List Byte}
    (hs : PointsTo (-1) ptr str s) (rest : List Arg) :
    (stream (cstr (literalField flags w p)) (.ptr ptr str :: rest) =
        stream (cstr (starField flags))
          (.int (BitVec.ofNat 32 w) :: .int (BitVec.ofNat 32 p) :: .ptr ptr str :: rest) ↔
      p ≠ 0 ∨ FillsField (padMode flags) w s) ∧
    (stream (cstr (literalPrecision flags p)) (.ptr ptr str :: rest) =
        stream (cstr (starPrecision flags)) (.int (BitVec.ofNat 32 p) :: .ptr ptr str :: rest) ↔
      p ≠ 0 ∨ s = []) := by
  have hvalue (n : Nat) (hn : n < 2147483648) : (BitVec.ofNat 32 n).toInt = n := by
    rw [← BitVec.ofInt_natCast, toInt_ofInt_word, int32_of_range (by omega) (by omega)]
  have hdot : isFlag (ascii '.') = true := by decide
  have hprecision : ∀ b ∈ ascii '.' :: numeralText decimal p, isFlag b = true :=
    List.forall_mem_cons.mpr ⟨hdot, numeralText_isFlag p⟩
  constructor
  · have hstars := applyFlags_stars hflags (w := BitVec.ofNat 32 w) (p := BitVec.ofNat 32 p)
      (by rw [hvalue w hwhigh]; omega) (.ptr ptr str :: rest)
    rw [hvalue w hwhigh, hvalue p hp] at hstars
    rw [← putString_literal_iff hwhigh p hs]
    refine stream_string_eq_iff (isFlag_of_mode hflags ?_) (isFlag_of_mode hflags (by decide))
      (applyFlags_literalField hflags hw hwhigh hp _) hstars
    exact List.forall_mem_append.mpr ⟨numeralText_isFlag w, hprecision⟩
  · have hstar := applyFlags_starPrecision hflags (BitVec.ofNat 32 p) (.ptr ptr str :: rest)
    rw [hvalue p hp] at hstar
    rw [← fillsField_zero (padMode flags), ← putString_literal_iff (by decide) p hs]
    exact stream_string_eq_iff (isFlag_of_mode hflags hprecision)
      (isFlag_of_mode hflags (by decide)) (applyFlags_literalPrecision hflags hp _) hstar

theorem pointsTo_ab : PointsTo (-1) literalAddr (cstr (bytes "ab")) (bytes "ab") :=
  @PointsTo.string (-1) literalAddr (bytes "ab") (by decide) (by decide) (by decide) []

/-- A precision of zero in the format prints the whole string behind zeros,
and as an argument it prints spaces alone. -/
theorem stream_literal_zero :
    stream (cstr (bytes "%5.0s")) [.ptr literalAddr (cstr (bytes "ab"))] =
        some ([], (bytes "000ab").map ofChar) ∧
      stream (cstr (bytes "%*.*s")) [.int 5, .int 0, .ptr literalAddr (cstr (bytes "ab"))] =
        some ([], (bytes "     ").map ofChar) := by
  constructor
  · decide
  · decide

theorem stream_literal_one :
    stream (cstr (bytes "%-5.1s")) [.ptr literalAddr (cstr (bytes "ab"))] =
        stream (cstr (bytes "%-*.*s")) [.int 5, .int 1, .ptr literalAddr (cstr (bytes "ab"))] ∧
      stream (cstr (bytes "%-.1s")) [.ptr literalAddr (cstr (bytes "ab"))] =
        stream (cstr (bytes "%-.*s")) [.int 1, .ptr literalAddr (cstr (bytes "ab"))] := by
  have hliteral := stream_literal_iff (show ∀ b ∈ bytes "-", b ∈ modeFlags by decide)
    (show 1 ≤ 5 by decide) (by decide) (show 1 < 2147483648 by decide) pointsTo_ab []
  have hfield : literalField (bytes "-") 5 1 = bytes "%-5.1s" := by decide
  have hprecision : literalPrecision (bytes "-") 1 = bytes "%-.1s" := by decide
  rw [hfield, hprecision] at hliteral
  exact ⟨hliteral.1.mpr (Or.inl (by decide)), hliteral.2.mpr (Or.inl (by decide))⟩

end JOSKernel.Lib.FormatFields
