import JOSKernel.General.Positional
import JOSKernel.Lib.StringRoutines

/-!
# The texts that `strtol` reads

A number may stand behind blanks, a sign and a base prefix.  Whatever stands
there, `strtol` goes on to the run of digits behind it and leaves the end
pointer at the first character that is not a digit of the base.
-/

namespace JOSKernel.Lib.StrtolForms

open JOSKernel.General.MachineInt
open JOSKernel.General.Positional
open JOSKernel.Lib.StringRoutines

abbrev IsBlank (ch : Byte) : Prop := ch = ascii ' ' ∨ ch = 9

abbrev IsSign (ch : Byte) : Prop := ch = ascii '+' ∨ ch = ascii '-'

/-- The character is the digit `d` of the base. -/
def IsDigit (base : Nat) (ch : Byte) (d : Nat) : Prop := digitValue ch = some d ∧ d < base

/-- The text does not go on with a digit of the base, nor does it end. -/
def StopsDigits (base : Nat) (text : List Byte) : Prop :=
  ∃ ch rest, text = ch :: rest ∧ ∀ d, ¬ IsDigit base ch d

/-- An optional sign, and whether it negates. -/
inductive Sign : List Byte → Bool → Prop where
  | none : Sign [] false
  | plus : Sign [ascii '+'] false
  | minus : Sign [ascii '-'] true

/-- The prefix that a base allows in front of a text, and the base it leaves.
The octal `0` stays a digit of the text. -/
inductive Prefix (base : Nat) : List Byte → Nat → List Byte → Prop where
  | hex {text : List Byte} (hbase : base = 0 ∨ base = 16) : Prefix base (bytes "0x") 16 text
  | octal {text : List Byte} (hbase : base = 0) (hzero : text.head? = some (ascii '0'))
      (hmark : ¬ bytes "0x" <+: text) : Prefix base [] 8 text
  | decimal {text : List Byte} (hbase : base = 0) (hzero : text.head? ≠ some (ascii '0')) :
      Prefix base [] 10 text
  | given {text : List Byte} (hbase : base ≠ 0) (hmark : base = 16 → ¬ bytes "0x" <+: text) :
      Prefix base [] base text

/-! ## The parts of a text -/

theorem skipBlanks_append {blanks : List Byte} (hblanks : ∀ ch ∈ blanks, IsBlank ch) {ch : Byte}
    (hch : ¬ IsBlank ch) (rest : List Byte) :
    skipBlanks (blanks ++ ch :: rest) = some (ch :: rest) := by
  induction blanks with
  | nil => rw [List.nil_append, skipBlanks, if_neg hch]
  | cons blank blanks ih =>
      rw [List.cons_append, skipBlanks, if_pos (hblanks blank List.mem_cons_self)]
      exact ih fun ch hch => hblanks ch (List.mem_cons_of_mem _ hch)

theorem signPrefix_append {sign : List Byte} {neg : Bool} (hsign : Sign sign neg) {ch : Byte}
    (hch : sign = [] → ¬ IsSign ch) (rest : List Byte) :
    signPrefix (sign ++ ch :: rest) = some (neg, ch :: rest) := by
  cases hsign with
  | none =>
      have hnone := not_or.mp (hch rfl)
      rw [List.nil_append, signPrefix, if_neg hnone.1, if_neg hnone.2]
  | plus => rfl
  | minus => rfl

/-- The digit loop is Horner's rule with wrapping, up to where the digits stop. -/
theorem strtolDigits_append {base : Nat} (v : Nat) {digits : List Byte} {ds : List Nat}
    (hdigits : List.Forall₂ (IsDigit base) digits ds) {tail : List Byte}
    (htail : StopsDigits base tail) :
    strtolDigits base (int32 v) (digits ++ tail) = some (int32 (horner base v ds), tail) := by
  induction hdigits generalizing v with
  | nil =>
      obtain ⟨ch, rest, rfl, hstop⟩ := htail
      rw [List.nil_append, strtolDigits, horner]
      cases hvalue : digitValue ch with
      | none => rfl
      | some d =>
          have hbig : ¬ d < base := fun hlt => hstop d ⟨hvalue, hlt⟩
          dsimp only
          rw [if_pos (by omega)]
  | cons hdigit _ ih =>
      rw [List.cons_append, strtolDigits, hdigit.1]
      dsimp only
      rw [if_neg (by have := hdigit.2; omega), int32_horner, ih, horner]

/-- Text that does not start with `0x` is left alone under a given base. -/
theorem basePrefix_given {base : Nat} (hbase : base ≠ 0) {ch : Byte} {rest : List Byte}
    (hmark : base = 16 → ch = ascii '0' → ∃ next more, rest = next :: more ∧ next ≠ ascii 'x') :
    basePrefix base (ch :: rest) = some ((base : Int), ch :: rest) := by
  have hzero : ¬ (base : Int) = 0 := by omega
  unfold basePrefix
  dsimp only
  split
  · rename_i hhex
    obtain ⟨next, more, rfl, hnext⟩ := hmark (by have := hhex.1; omega) hhex.2
    simp [hnext]
  · simp

/-- Text that may be stopped at has a character to stop at. -/
theorem two_characters {base : Nat} {digits : List Byte} {ds : List Nat}
    (hdigits : List.Forall₂ (IsDigit base) digits ds) {tail : List Byte}
    (htail : StopsDigits base tail) :
    ∃ ch rest, digits ++ tail = ch :: rest ∧
      ((∃ d, IsDigit base ch d) → ∃ next more, rest = next :: more) := by
  obtain ⟨stop, more, rfl, hstop⟩ := htail
  cases hdigits with
  | nil => exact ⟨stop, more, rfl, fun ⟨d, hd⟩ => absurd hd (hstop d)⟩
  | cons hdigit hrest =>
      rename_i ch d digits ds
      refine ⟨ch, digits ++ stop :: more, rfl, fun _ => ?_⟩
      cases digits with
      | nil => exact ⟨stop, more, rfl⟩
      | cons next digits => exact ⟨next, _, rfl⟩

/-- Under every prefix the digits are read in the base that it leaves. -/
theorem prefix_digits {base eff : Nat} {mark digits tail : List Byte} {ds : List Nat}
    (hshape : Prefix base mark eff (digits ++ tail))
    (hdigits : List.Forall₂ (IsDigit eff) digits ds) (htail : StopsDigits eff tail) :
    ((basePrefix base (mark ++ (digits ++ tail))).bind fun r => strtolDigits r.1 0 r.2) =
      some (int32 (horner eff 0 ds), tail) := by
  have hread := strtolDigits_append 0 hdigits htail
  cases hshape with
  | hex hbase =>
      have hcond : (base : Int) = 0 ∨ (base : Int) = 16 := by omega
      have hskip : basePrefix base (bytes "0x" ++ (digits ++ tail)) =
          some (16, digits ++ tail) := by
        change basePrefix base (ascii '0' :: ascii 'x' :: (digits ++ tail)) = _
        rw [basePrefix, if_pos ⟨hcond, rfl⟩]
        rfl
      rw [hskip]
      exact hread
  | octal hbase hzero hmark =>
      -- The zero that makes the base octal is its first digit.
      cases hdigits with
      | nil =>
          obtain ⟨ch, rest, rfl, hstop⟩ := htail
          rw [List.nil_append, List.head?_cons, Option.some.injEq] at hzero
          exact absurd ⟨by rw [hzero]; rfl, by decide⟩ (hstop 0)
      | cons hdigit hrest =>
          rename_i ch d digits ds
          rw [List.cons_append, List.head?_cons, Option.some.injEq] at hzero
          have hd : d = 0 := by
            have hvalue := hdigit.1
            rw [hzero] at hvalue
            exact (Option.some.inj hvalue).symm
          obtain ⟨next, more, hmore, _⟩ := two_characters hrest htail
          have hnext : next ≠ ascii 'x' := by
            rintro rfl
            apply hmark
            rw [List.cons_append, hmore, hzero]
            exact List.prefix_append (bytes "0x") more
          have hskip : basePrefix base ([] ++ (ch :: digits ++ tail)) =
              some (8, digits ++ tail) := by
            rw [List.nil_append, List.cons_append, hmore, hzero, hbase]
            unfold basePrefix
            simp [hnext]
          rw [hskip]
          have hrun := strtolDigits_append 0 hrest htail
          rw [hd, horner, Nat.zero_mul, Nat.zero_add]
          exact hrun
  | decimal hbase hzero =>
      obtain ⟨ch, rest, hfirst, _⟩ := two_characters hdigits htail
      have hskip : basePrefix base ([] ++ (digits ++ tail)) = some (10, digits ++ tail) := by
        have hch : ch ≠ ascii '0' := by
          rintro rfl
          rw [hfirst] at hzero
          exact hzero rfl
        rw [List.nil_append, hfirst, hbase]
        unfold basePrefix
        simp [hch]
      rw [hskip]
      exact hread
  | given hbase hmark =>
      have hskip : basePrefix base ([] ++ (digits ++ tail)) =
          some ((base : Int), digits ++ tail) := by
        obtain ⟨ch, rest, hfirst, hmore⟩ := two_characters hdigits htail
        rw [List.nil_append, hfirst]
        apply basePrefix_given hbase
        rintro rfl rfl
        obtain ⟨next, more, rfl⟩ := hmore ⟨0, rfl, by decide⟩
        refine ⟨next, more, rfl, ?_⟩
        rintro rfl
        apply hmark rfl
        rw [hfirst]
        exact List.prefix_append (bytes "0x") more
      rw [hskip]
      exact hread

/-- The text of a number: blanks, a sign, a base prefix, digits and a tail. -/
structure Form (base : Nat) (blanks sign mark digits tail : List Byte) (neg : Bool) (eff : Nat)
    (ds : List Nat) : Prop where
  blank : ∀ ch ∈ blanks, IsBlank ch
  sign : Sign sign neg
  mark : Prefix base mark eff (digits ++ tail)
  digit : List.Forall₂ (IsDigit eff) digits ds
  stop : StopsDigits eff tail

def signed (neg : Bool) (n : Nat) : Int := if neg then -n else n

section Form

variable {base eff : Nat} {blanks sign mark digits tail : List Byte} {neg : Bool} {ds : List Nat}

/-- A text whose blanks and sign are as long as they can be gives the value of
its digits, which may be none. -/
theorem strtol_form (h : Form base blanks sign mark digits tail neg eff ds)
    (hgap : ∀ ch rest, sign ++ (mark ++ (digits ++ tail)) = ch :: rest → ¬ IsBlank ch)
    (hplain : sign = [] → ∀ ch rest, mark ++ (digits ++ tail) = ch :: rest → ¬ IsSign ch) :
    strtol (blanks ++ (sign ++ (mark ++ (digits ++ tail)))) base =
      some (int32 (signed neg (Nat.ofDigits eff ds.reverse)), tail) := by
  obtain ⟨first, others, hfirst⟩ : ∃ first others, mark ++ (digits ++ tail) = first :: others := by
    obtain ⟨ch, rest, hch, _⟩ := two_characters h.digit h.stop
    rw [hch]
    cases mark with
    | nil => exact ⟨ch, rest, rfl⟩
    | cons m mark => exact ⟨m, mark ++ ch :: rest, rfl⟩
  have hskip : skipBlanks (blanks ++ (sign ++ (mark ++ (digits ++ tail)))) =
      some (sign ++ (mark ++ (digits ++ tail))) := by
    obtain ⟨ch, rest, hch⟩ : ∃ ch rest, sign ++ (mark ++ (digits ++ tail)) = ch :: rest := by
      rw [hfirst]
      cases sign with
      | nil => exact ⟨first, others, rfl⟩
      | cons sgn sign => exact ⟨sgn, sign ++ first :: others, rfl⟩
    rw [hch]
    exact skipBlanks_append h.blank (hgap ch rest hch) rest
  have hsign : signPrefix (sign ++ (mark ++ (digits ++ tail))) =
      some (neg, mark ++ (digits ++ tail)) := by
    rw [hfirst]
    exact signPrefix_append h.sign (fun hnone => hplain hnone first others hfirst) others
  have hread := prefix_digits h.mark h.digit h.stop
  obtain ⟨r, hr, hrun⟩ := Option.bind_eq_some_iff.mp hread
  rw [horner_zero] at hrun
  rw [strtol, hskip]
  simp only [Option.bind_eq_bind, Option.bind_some, hsign, hr, hrun, Option.pure_def]
  cases neg with
  | false => simp only [signed, Bool.false_eq_true, if_false]
  | true => simp only [signed, if_true, int32_neg]

/-- A digit is neither a blank nor a sign. -/
theorem digit_not_blank {ch : Byte} {d : Nat} (h : IsDigit base ch d) :
    ¬ IsBlank ch ∧ ¬ IsSign ch := by
  have hvalue := h.1
  constructor
  · rintro (rfl | rfl)
    all_goals cases hvalue
  · rintro (rfl | rfl)
    all_goals cases hvalue

/-- What a number with a digit starts with is neither a blank nor a sign. -/
theorem Form.opens (h : Form base blanks sign mark digits tail neg eff ds) (hdigits : digits ≠ [])
    {ch : Byte} {rest : List Byte} (hch : mark ++ (digits ++ tail) = ch :: rest) :
    ¬ IsBlank ch ∧ ¬ IsSign ch := by
  obtain ⟨first, others, rfl⟩ := List.exists_cons_of_ne_nil hdigits
  have hfirst : ¬ IsBlank first ∧ ¬ IsSign first := by
    cases h.digit with
    | cons hdigit _ => exact digit_not_blank hdigit
  cases h.mark with
  | hex _ =>
      obtain rfl := (List.cons.inj hch).1
      decide
  | octal _ _ _ =>
      obtain rfl := (List.cons.inj hch).1
      exact hfirst
  | decimal _ _ =>
      obtain rfl := (List.cons.inj hch).1
      exact hfirst
  | given _ _ =>
      obtain rfl := (List.cons.inj hch).1
      exact hfirst

/-- The blanks end in front of the sign or of the number itself. -/
theorem Form.gap_ends (h : Form base blanks sign mark digits tail neg eff ds)
    (hdigits : digits ≠ []) {ch : Byte} {rest : List Byte}
    (hch : sign ++ (mark ++ (digits ++ tail)) = ch :: rest) : ¬ IsBlank ch := by
  cases h.sign with
  | none => exact (h.opens hdigits hch).1
  | plus =>
      obtain rfl := (List.cons.inj hch).1
      decide
  | minus =>
      obtain rfl := (List.cons.inj hch).1
      decide

/-- Behind any blanks, sign and prefix that the base allows, at least one digit
is read: the value is the signed positional value modulo `2 ^ 32`, and the end
pointer is at the tail. -/
theorem strtol_reads (h : Form base blanks sign mark digits tail neg eff ds)
    (hdigits : digits ≠ []) :
    strtol (blanks ++ (sign ++ (mark ++ (digits ++ tail)))) base =
      some (int32 (signed neg (Nat.ofDigits eff ds.reverse)), tail) := by
  apply strtol_form h
  · intro ch rest hch
    exact h.gap_ends hdigits hch
  · intro _ ch rest hch
    exact (h.opens hdigits hch).2

end Form

/-- A negative hexadecimal number in front of a letter that is not a digit. -/
theorem strtol_reads_hex :
    strtol ([ascii ' ', 9] ++ (bytes "-" ++ (bytes "0x" ++ (bytes "1F" ++ cstr (bytes "g"))))) 0 =
      some (int32 (signed true (Nat.ofDigits 16 [1, 15].reverse)), cstr (bytes "g")) := by
  have hstop : StopsDigits 16 (cstr (bytes "g")) := by
    refine ⟨ascii 'g', [0], rfl, fun d hd => ?_⟩
    have hvalue : 16 = d := Option.some.inj hd.1
    have hsmall := hd.2
    omega
  have hform : Form 0 [ascii ' ', 9] (bytes "-") (bytes "0x") (bytes "1F") (cstr (bytes "g"))
      true 16 [1, 15] := by
    constructor
    · decide
    · exact .minus
    · exact .hex (.inl rfl)
    · exact .cons ⟨rfl, by decide⟩ (.cons ⟨rfl, by decide⟩ .nil)
    · exact hstop
  exact strtol_reads hform (by decide)

/-! ## Where the end pointer tells of a number -/

/-- Behind the blanks and the sign. -/
def afterSign (s : List Byte) : List Byte :=
  match s.dropWhile fun ch => decide (IsBlank ch) with
  | [] => []
  | ch :: rest => if IsSign ch then rest else ch :: rest

/-- The base has a `0x` taken off the text. -/
abbrev HexMark (base : Nat) (text : List Byte) : Prop :=
  (base = 0 ∨ base = 16) ∧ bytes "0x" <+: text

/-- The base of the digits, and the text that should start with one. -/
def effectiveBase (base : Nat) (s : List Byte) : Nat :=
  if HexMark base (afterSign s) then 16
  else if base ≠ 0 then base
  else if (afterSign s).head? = some (ascii '0') then 8
  else 10

def numberText (base : Nat) (s : List Byte) : List Byte :=
  if HexMark base (afterSign s) then (afterSign s).drop 2 else afterSign s

/-- Every text splits behind its blanks. -/
theorem blanks_split {s : List Byte} (hnul : 0 ∈ s) :
    ∃ blanks ch rest, s = blanks ++ ch :: rest ∧ (∀ b ∈ blanks, IsBlank b) ∧ ¬ IsBlank ch ∧
      (s.dropWhile fun ch => decide (IsBlank ch)) = ch :: rest ∧ 0 ∈ ch :: rest := by
  induction s with
  | nil => cases hnul
  | cons first s ih =>
      by_cases hfirst : IsBlank first
      · have hrest : 0 ∈ s := by
          refine (List.mem_cons.mp hnul).resolve_left ?_
          rintro rfl
          exact absurd hfirst (by decide)
        obtain ⟨blanks, ch, rest, hs, hblanks, hch, hdrop, hmem⟩ := ih hrest
        refine ⟨first :: blanks, ch, rest, by rw [hs]; rfl, ?_, hch, ?_, hmem⟩
        · exact List.forall_mem_cons.mpr ⟨hfirst, hblanks⟩
        · rw [List.dropWhile_cons, if_pos (decide_eq_true hfirst), hdrop]
      · refine ⟨[], first, s, rfl, fun b hb => (nomatch hb), hfirst, ?_, hnul⟩
        rw [List.dropWhile_cons, if_neg]
        rw [decide_eq_true_eq]
        exact hfirst

/-- Every text splits behind its digits. -/
theorem digits_split (base : Nat) {text : List Byte} (hnul : 0 ∈ text) :
    ∃ digits ds tail, text = digits ++ tail ∧ List.Forall₂ (IsDigit base) digits ds ∧
      StopsDigits base tail := by
  induction text with
  | nil => cases hnul
  | cons ch text ih =>
      by_cases hch : ∃ d, IsDigit base ch d
      · obtain ⟨d, hd⟩ := hch
        have hrest : 0 ∈ text := by
          refine (List.mem_cons.mp hnul).resolve_left ?_
          rintro rfl
          exact nomatch hd.1
        obtain ⟨digits, ds, tail, rfl, hdigits, htail⟩ := ih hrest
        exact ⟨ch :: digits, d :: ds, tail, rfl, .cons hd hdigits, htail⟩
      · exact ⟨[], [], ch :: text, rfl, .nil, ch, text, rfl, not_exists.mp hch⟩

/-- The prefix of a text under a base, as `effectiveBase` and `numberText` say. -/
theorem prefix_of (base : Nat) (s : List Byte) :
    ∃ mark, afterSign s = mark ++ numberText base s ∧
      Prefix base mark (effectiveBase base s) (numberText base s) ∧
      (mark = [] ∨ mark = bytes "0x" ∧ effectiveBase base s = 16) := by
  unfold numberText effectiveBase
  by_cases hmark : HexMark base (afterSign s)
  · rw [if_pos hmark, if_pos hmark]
    obtain ⟨text, htext⟩ := hmark.2
    refine ⟨bytes "0x", ?_, .hex hmark.1, .inr ⟨rfl, rfl⟩⟩
    rw [← htext]
    rfl
  · rw [if_neg hmark, if_neg hmark]
    refine ⟨[], rfl, ?_, .inl rfl⟩
    by_cases hbase : base = 0
    · rw [if_neg (not_not.mpr hbase)]
      by_cases hzero : (afterSign s).head? = some (ascii '0')
      · rw [if_pos hzero]
        exact .octal hbase hzero fun h => hmark ⟨.inl hbase, h⟩
      · rw [if_neg hzero]
        exact .decimal hbase hzero
    · rw [if_pos hbase]
      exact .given hbase fun hsixteen h => hmark ⟨.inr hsixteen, h⟩

theorem sign_no_nul {sign : List Byte} {neg : Bool} (hsign : Sign sign neg) : 0 ∉ sign := by
  cases hsign
  all_goals decide

/-- What stands in front of the digits ends in no digit. -/
theorem lead_last {eff : Nat} {blanks sign mark : List Byte} {neg : Bool}
    (hblanks : ∀ b ∈ blanks, IsBlank b) (hsign : Sign sign neg)
    (hmark : mark = [] ∨ mark = bytes "0x" ∧ eff = 16) {front : List Byte} {ch : Byte}
    (hlead : blanks ++ (sign ++ mark) = front ++ [ch]) (d : Nat) : ¬ IsDigit eff ch d := by
  intro hdigit
  have hch : (blanks ++ (sign ++ mark)).getLast? = some ch := by
    rw [hlead, List.getLast?_concat]
  rcases hmark with rfl | ⟨rfl, rfl⟩
  · rw [List.append_nil] at hch
    obtain ⟨hblank, hplain⟩ := digit_not_blank hdigit
    have hmem := List.mem_of_getLast? hch
    rcases List.mem_append.mp hmem with hin | hin
    · exact hblank (hblanks ch hin)
    · cases hsign with
      | none => cases hin
      | plus => exact hplain (.inl (List.mem_singleton.mp hin))
      | minus => exact hplain (.inr (List.mem_singleton.mp hin))
  · rw [← List.append_assoc, List.getLast?_append] at hch
    obtain rfl : ascii 'x' = ch := Option.some.inj hch
    have hvalue : 33 = d := Option.some.inj hdigit.1
    have := hdigit.2
    omega

/-- What `strtol` makes of an arbitrary text. -/
structure Parse (base : Nat) (s lead digits tail : List Byte) (val : Int) (ds : List Nat) :
    Prop where
  text : s = lead ++ numberText base s
  number : numberText base s = digits ++ tail
  digit : List.Forall₂ (IsDigit (effectiveBase base s)) digits ds
  stop : StopsDigits (effectiveBase base s) tail
  result : strtol s base = some (val, tail)
  empty : digits = [] → val = 0
  last : ∀ front ch, lead = front ++ [ch] → ∀ d, ¬ IsDigit (effectiveBase base s) ch d

theorem exists_parse (base : Nat) {s : List Byte} (hnul : 0 ∈ s) :
    ∃ lead digits tail val ds, Parse base s lead digits tail val ds := by
  obtain ⟨blanks, ch, rest, hs, hblanks, hch, hdrop, hmem⟩ := blanks_split hnul
  obtain ⟨mark, hafter, hshape, hmark⟩ := prefix_of base s
  -- The sign, if there is one, stands right behind the blanks.
  obtain ⟨sign, neg, hsign, hrest, hplain⟩ : ∃ sign neg, Sign sign neg ∧
      ch :: rest = sign ++ afterSign s ∧
      (sign = [] → ¬ IsSign ch) := by
    unfold afterSign
    rw [hdrop]
    dsimp only
    by_cases hsgn : IsSign ch
    · rw [if_pos hsgn]
      rcases hsgn with rfl | rfl
      · exact ⟨_, false, .plus, rfl, fun h => (nomatch h)⟩
      · exact ⟨_, true, .minus, rfl, fun h => (nomatch h)⟩
    · rw [if_neg hsgn]
      exact ⟨[], false, .none, rfl, fun _ => hsgn⟩
  have hnumber : 0 ∈ numberText base s := by
    rw [hrest, hafter, ← List.append_assoc] at hmem
    refine (List.mem_append.mp hmem).resolve_left fun hlead => ?_
    rcases List.mem_append.mp hlead with hin | hin
    · exact sign_no_nul hsign hin
    · rcases hmark with rfl | ⟨rfl, _⟩
      · cases hin
      · exact absurd hin (by decide)
  obtain ⟨digits, ds, tail, htext, hdigits, htail⟩ := digits_split (effectiveBase base s) hnumber
  have hform : Form base blanks sign mark digits tail neg (effectiveBase base s) ds :=
    ⟨hblanks, hsign, htext ▸ hshape, hdigits, htail⟩
  have hsplit : s = blanks ++ (sign ++ (mark ++ (digits ++ tail))) := by
    rw [← htext, ← hafter, ← hrest]
    exact hs
  have hopen : sign ++ (mark ++ (digits ++ tail)) = ch :: rest := by
    rw [← htext, ← hafter, ← hrest]
  have hrun := strtol_form hform
    (fun c r hc => by
      rw [hopen] at hc
      exact (List.cons.inj hc).1 ▸ hch)
    (fun hnone c r hc => by
      rw [hnone, List.nil_append, hc] at hopen
      exact (List.cons.inj hopen).1.symm ▸ hplain hnone)
  rw [← hsplit] at hrun
  refine ⟨blanks ++ (sign ++ mark), digits, tail, _, ds, ?_, htext, hdigits, htail, hrun, ?_, ?_⟩
  · rw [List.append_assoc, List.append_assoc, ← hafter, ← hrest]
    exact hs
  · rintro rfl
    cases hdigits
    rw [List.reverse_nil, Nat.ofDigits_nil, signed, Int.ofNat_zero, Int.neg_zero, ite_self]
    exact int32_of_range (by decide) (by decide)
  · intro front c hlead
    exact lead_last hblanks hsign hmark hlead

theorem forall₂_last {eff : Nat} {front : List Byte} {ch : Byte} {ds : List Nat}
    (h : List.Forall₂ (IsDigit eff) (front.concat ch) ds) : ∃ d, IsDigit eff ch d := by
  induction front generalizing ds with
  | nil =>
      cases h with
      | cons hdigit _ => exact ⟨_, hdigit⟩
  | cons first front ih =>
      cases h with
      | cons _ hrest => exact ih hrest

/-- `strtol` consumes a whole numeral or nothing. -/
def Whole (base : Nat) (s : List Byte) : Prop :=
  ∃ val consumed tail, strtol s base = some (val, tail) ∧ s = consumed ++ tail ∧
    (consumed = [] ∧ val = 0 ∨
      ∃ front ch d, consumed = front ++ [ch] ∧ IsDigit (effectiveBase base s) ch d)

/-- That is so exactly when nothing stands in front of the place of the digits,
or a digit stands there. -/
theorem strtol_whole_iff (base : Nat) {s : List Byte} (hnul : 0 ∈ s) :
    Whole base s ↔
      numberText base s = s ∨
        ∃ ch d, (numberText base s).head? = some ch ∧ IsDigit (effectiveBase base s) ch d := by
  obtain ⟨lead, digits, tail, val, ds, h⟩ := exists_parse base hnul
  have hsplit : s = (lead ++ digits) ++ tail := by
    rw [List.append_assoc, ← h.number]
    exact h.text
  constructor
  · rintro ⟨val', consumed, tail', hrun, hconsumed, hend⟩
    rw [h.result, Option.some.injEq, Prod.mk.injEq] at hrun
    obtain ⟨rfl, rfl⟩ := hrun
    obtain rfl : lead ++ digits = consumed := List.append_cancel_right (hsplit.symm.trans hconsumed)
    rcases hend with ⟨hnone, _⟩ | ⟨front, ch, d, hlast, hdigit⟩
    · left
      have htext := h.text
      rw [(List.append_eq_nil_iff.mp hnone).1] at htext
      exact htext.symm
    · right
      rw [h.number]
      cases digits with
      | nil =>
          rw [List.append_nil] at hlast
          exact absurd hdigit (h.last front ch hlast d)
      | cons first digits =>
          cases h.digit with
          | cons hfirst _ => exact ⟨first, _, rfl, hfirst⟩
  · intro hcond
    refine ⟨val, lead ++ digits, tail, h.result, hsplit, ?_⟩
    rcases List.eq_nil_or_concat digits with rfl | ⟨front, ch, rfl⟩
    · left
      have hnumber : numberText base s = s := by
        refine hcond.resolve_right ?_
        rintro ⟨ch, d, hch, hdigit⟩
        obtain ⟨stop, rest, rfl, hstop⟩ := h.stop
        rw [h.number] at hch
        obtain rfl : stop = ch := Option.some.inj hch
        exact hstop d hdigit
      have htext := h.text
      rw [hnumber] at htext
      rw [List.append_nil]
      exact ⟨List.append_left_eq_self.mp htext.symm, h.empty rfl⟩
    · right
      obtain ⟨d, hd⟩ := forall₂_last h.digit
      exact ⟨lead ++ front, ch, d, by rw [List.concat_eq_append, List.append_assoc], hd⟩

/-- The octal zero in front of a digit that is too large. -/
theorem strtol_whole_iff_octal :
    Whole 0 (cstr (bytes "09")) ↔
      numberText 0 (cstr (bytes "09")) = cstr (bytes "09") ∨
        ∃ ch d, (numberText 0 (cstr (bytes "09"))).head? = some ch ∧
          IsDigit (effectiveBase 0 (cstr (bytes "09"))) ch d :=
  strtol_whole_iff 0 (by decide)

/-- A prefix without digits is consumed whole. -/
theorem strtol_not_whole : ¬ Whole 16 (cstr (bytes "0x")) := by
  rintro ⟨val, consumed, tail, hrun, hconsumed, hend⟩
  obtain ⟨rfl, rfl⟩ : 0 = val ∧ [0] = tail := Prod.mk.inj (Option.some.inj hrun)
  obtain rfl : bytes "0x" = consumed := List.append_cancel_right hconsumed
  rcases hend with ⟨hnone, _⟩ | ⟨front, ch, d, hlast, hdigit⟩
  · cases hnone
  · have hch : (bytes "0x").getLast? = some ch := by
      rw [hlast, List.getLast?_concat]
    obtain rfl : ascii 'x' = ch := Option.some.inj hch
    obtain rfl : 33 = d := Option.some.inj hdigit.1
    exact absurd hdigit.2 (by decide)

end JOSKernel.Lib.StrtolForms
