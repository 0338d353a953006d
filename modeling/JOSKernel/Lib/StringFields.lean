import JOSKernel.Lib.NumberFields

/-!
# Strings in fields

`%s` copies the bytes of a string up to its NUL or its precision, behind
padding that fills the width or in front of spaces that do.  One `int` counts
the width down over all three loops, so the field is filled exactly as long as
that counter does not pass the least `int`.
-/

namespace JOSKernel.Lib.FormatFields

open JOSKernel.General.MachineInt
open JOSKernel.Lib.FormatText
open JOSKernel.Lib.NumberText
open JOSKernel.Lib.Printfmt
open JOSKernel.Lib.StringRoutines

/-! ## String arguments -/

/-- The bytes of a string that a precision lets `%s` read: up to the NUL, and
at most one more than the precision. -/
def reach (precision : Int) (s : List Byte) : List Byte :=
  if precision < 0 then cstr s else (cstr s).take (precision.toNat + 1)

/-- The pointer stands for the string `s`: only `reach` of its bytes need be
readable, and it ends inside the address space.  NULL stands for `(null)`. -/
inductive PointsTo (precision : Int) : Word → List Byte → List Byte → Prop where
  | null (str : List Byte) : PointsTo precision 0 str (bytes "(null)")
  | string {p : Word} {s : List Byte} (hp : p ≠ 0) (hnul : 0 ∉ s)
      (hroom : p.toNat + s.length < 4294967296) (extra : List Byte) :
      PointsTo precision p (reach precision s ++ extra) s

/-- The number of bytes that are copied. -/
def copiedLength (precision : Int) (s : List Byte) : Nat :=
  if precision < 0 then s.length else min s.length precision.toNat

theorem copiedLength_le (precision : Int) (s : List Byte) :
    copiedLength precision s ≤ s.length := by
  rw [copiedLength]
  split
  · exact Nat.le_refl _
  · exact Nat.min_le_left _ _

/-- The bytes that are copied, and the one that ends the copy. -/
theorem reach_split (precision : Int) (s extra : List Byte) :
    ∃ stop rest, reach precision s ++ extra =
        s.take (copiedLength precision s) ++ stop :: rest ∧
      Stops precision (copiedLength precision s) stop := by
  rw [reach, copiedLength]
  split
  · rename_i hnone
    refine ⟨0, extra, ?_, Or.inl ⟨rfl, Or.inl hnone⟩⟩
    rw [List.take_length, cstr, List.append_assoc]
    rfl
  · rename_i hsome
    by_cases hlong : precision.toNat < s.length
    · refine ⟨s[precision.toNat], extra, ?_, Or.inr (by omega)⟩
      rw [Nat.min_eq_right (Nat.le_of_lt hlong), cstr, List.take_append_of_le_length hlong,
        List.take_succ_eq_append_getElem hlong, List.append_assoc]
      rfl
    · refine ⟨0, extra, ?_, Or.inl ⟨rfl, Or.inr (by omega)⟩⟩
      have hwhole : (cstr s).length ≤ precision.toNat + 1 := by
        simp only [cstr, List.length_append, List.length_singleton]
        omega
      rw [Nat.min_eq_left (Nat.le_of_not_lt hlong), List.take_length, List.take_of_length_le hwhole,
        cstr, List.append_assoc]
      rfl

theorem cstr_reach (precision : Int) (s : List Byte) :
    ∃ extra, cstr s = reach precision s ++ extra := by
  rw [reach]
  split
  · exact ⟨[], (List.append_nil _).symm⟩
  · exact ⟨(cstr s).drop (precision.toNat + 1), (List.take_append_drop _ _).symm⟩

/-- A string that can be read to its NUL can be read under any precision. -/
theorem PointsTo.any {p : Word} {str s : List Byte} (h : PointsTo (-1) p str s)
    (precision : Int) : PointsTo precision p str s := by
  cases h with
  | null str => exact PointsTo.null str
  | string hp hnul hroom extra =>
      obtain ⟨more, hmore⟩ := cstr_reach precision s
      have hall : reach (-1) s ++ extra = reach precision s ++ (more ++ extra) := by
        rw [← List.append_assoc, ← hmore]
        rfl
      rw [hall]
      exact PointsTo.string hp hnul hroom _

/-- What the case `'s'` reads of an array that holds `s`: the bytes that it
copies, and one at which it stops. -/
structure Copies (precision : Int) (array s copied : List Byte) (stop : Byte) (rest : List Byte) :
    Prop where
  array_eq : array = copied ++ stop :: rest
  copied_eq : copied = s.take (copiedLength precision s)
  length_eq : copied.length = copiedLength precision s
  no_nul : 0 ∉ copied
  length_lt : copied.length < 4294967295
  stops : Stops precision copied.length stop

theorem copies_reach (precision : Int) {s : List Byte} (hnul : 0 ∉ s)
    (hlength : s.length < 4294967295) (extra : List Byte) :
    ∃ copied stop rest, Copies precision (reach precision s ++ extra) s copied stop rest := by
  obtain ⟨stop, rest, hsplit, hstop⟩ := reach_split precision s extra
  have hle := copiedLength_le precision s
  have hcopied : (s.take (copiedLength precision s)).length = copiedLength precision s :=
    List.length_take_of_le hle
  exact ⟨_, stop, rest, hsplit, rfl, hcopied, fun hmem => hnul (List.mem_of_mem_take hmem),
    by omega, hcopied.symm ▸ hstop⟩

theorem PointsTo.copies {precision : Int} {p : Word} {str s : List Byte}
    (h : PointsTo precision p str s) :
    ∃ copied stop rest,
      Copies precision (if p = 0 then cstr (bytes "(null)") else str) s copied stop rest := by
  cases h with
  | null str =>
      obtain ⟨extra, hextra⟩ := cstr_reach precision (bytes "(null)")
      rw [if_pos rfl, hextra]
      exact copies_reach precision (by decide) (by decide) extra
  | string hp hnul hroom extra =>
      have hpos : p.toNat ≠ 0 := fun hzero => hp (BitVec.eq_of_toNat_eq hzero)
      rw [if_neg hp]
      exact copies_reach precision hnul (by omega) extra

/-! ## The three loops -/

theorem strnlen_text {text : List Byte} (hnul : 0 ∉ text) {size : Nat} (hsize : size ≤ text.length)
    (rest : List Byte) : strnlen (text ++ rest) size = some size := by
  induction text generalizing size with
  | nil =>
      rw [Nat.le_zero.mp hsize]
      cases rest <;> rfl
  | cons byte text ih =>
      simp only [List.mem_cons, not_or] at hnul
      cases size with
      | zero => rfl
      | succ size =>
          rw [List.cons_append, strnlen, if_neg (Ne.symm hnul.1),
            ih hnul.2 (Nat.le_of_succ_le_succ hsize)]
          rfl

/-- `strnlen` counts the bytes that will be copied.  A negative precision is
converted to a large size there. -/
theorem strnlen_copied {text : List Byte} (hnul : 0 ∉ text) {stop : Byte} (rest : List Byte)
    {precision : Int} (hlow : -2147483648 ≤ precision) (hhigh : precision < 2147483648)
    (hlength : precision < 0 → text.length ≤ precision + 4294967296)
    (hstop : Stops precision text.length stop) :
    strnlen (text ++ stop :: rest) (precision % 4294967296).toNat = some text.length := by
  rcases hstop with ⟨rfl, hbound⟩ | hspent
  · rw [strnlen_cstr hnul, Nat.min_eq_left]
    omega
  · have hsize : (precision % 4294967296).toNat = text.length := by omega
    rw [hsize]
    exact strnlen_text hnul (Nat.le_refl _) _

/-- With padding in front, the counter goes on from what the padding leaves. -/
theorem putString_padded {text : List Byte} (hnul : 0 ∉ text) {stop : Byte} (rest : List Byte)
    {l : Locals} (hleft : l.width > 0 ∧ l.padc ≠ ascii '-')
    (hstop : Stops l.precision text.length stop)
    (hcount : strnlen (text ++ stop :: rest) (l.precision % 4294967296).toNat =
      some text.length) :
    putString record l (text ++ stop :: rest) [] =
      some (List.replicate (int32 (l.width - text.length)).toNat (ofChar l.padc) ++
        text.map (shown l.altflag) ++
        List.replicate (int32 (min (int32 (l.width - text.length)) 0 - text.length)).toNat
          (ofChar (ascii ' '))) := by
  have hrange : int32 (min (int32 (l.width - text.length)) 0) =
      min (int32 (l.width - text.length)) 0 := by
    apply int32_of_range
    · unfold int32
      omega
    · omega
  have hcopy := copyLoop_shown l.altflag hnul rest hrange hstop
    (List.replicate (int32 (l.width - text.length)).toNat (ofChar l.padc))
  rw [putString, padString, if_pos hleft, hcount]
  simp only [Option.bind_eq_bind, Option.bind_some, Option.pure_def, putMany_record,
    List.nil_append, hcopy]

/-! ## Fields -/

/-- A string in a field of at least `width` characters: spaces fill it on the
right under `-`, the padding character on the left otherwise. -/
def stringField (padc : Byte) (width : Nat) (shownText : List Word) : List Word :=
  if padc = ascii '-' then
    shownText ++ List.replicate (width - shownText.length) (ofChar (ascii ' '))
  else List.replicate (width - shownText.length) (ofChar padc) ++ shownText

/-- The counter of the width stays an `int` while `length` bytes are copied.
Padding in front counts them once before. -/
def Counts (padc : Byte) (width : Int) (length : Nat) : Prop :=
  if 0 < width ∧ padc ≠ ascii '-' then 2 * length ≤ width + 2147483648
  else length ≤ width + 2147483648

theorem putString_field {text : List Byte} (hnul : 0 ∉ text) {stop : Byte} (rest : List Byte)
    {l : Locals} (hwidth : 0 ≤ l.width) (hhigh : l.width < 2147483648)
    (hlow : -2147483648 ≤ l.precision) (hprecision : l.precision < 2147483648)
    (hstop : Stops l.precision text.length stop) (hcounts : Counts l.padc l.width text.length) :
    putString record l (text ++ stop :: rest) [] =
      some (stringField l.padc l.width.toNat (text.map (shown l.altflag))) := by
  rw [stringField, List.length_map]
  by_cases hleft : 0 < l.width ∧ l.padc ≠ ascii '-'
  · rw [Counts, if_pos hleft] at hcounts
    have hcount := strnlen_copied hnul rest hlow hprecision (by omega) hstop
    have hpad : int32 (l.width - text.length) = l.width - text.length :=
      int32_of_range (by omega) (by omega)
    have hspaces : (int32 (min (l.width - text.length) 0 - text.length)).toNat = 0 := by
      rw [int32_of_range (by omega) (by omega)]
      omega
    rw [putString_padded hnul rest hleft hstop hcount, hpad, hspaces, if_neg hleft.2,
      List.replicate_zero, List.append_nil]
    congr 3
    omega
  · rw [Counts, if_neg hleft] at hcounts
    have hspaces : int32 (l.width - text.length) = l.width - text.length :=
      int32_of_range (by omega) (by omega)
    rw [putString_shown hnul rest (by omega) hhigh hleft hstop, hspaces]
    split
    · congr 3
      omega
    · rename_i hpadc
      have hnone : l.width = 0 := by
        by_contra hne
        exact hleft ⟨by omega, hpadc⟩
      have hspaces : ((0 : Int) - text.length).toNat = 0 := by omega
      rw [hnone, hspaces, Int.toNat_zero, Nat.zero_sub, List.replicate_zero, List.replicate_zero,
        List.append_nil, List.nil_append]

/-- The characters that `%s` copies of a string. -/
def copiedText (l : Locals) (s : List Byte) : List Word :=
  (s.take (copiedLength l.precision s)).map (shown l.altflag)

theorem copiedText_length (l : Locals) (s : List Byte) :
    (copiedText l s).length = copiedLength l.precision s := by
  rw [copiedText, List.length_map, List.length_take, Nat.min_eq_left (copiedLength_le _ _)]

theorem Copies.copiedText_eq {l : Locals} {array s copied rest : List Byte} {stop : Byte}
    (h : Copies l.precision array s copied stop rest) :
    copiedText l s = copied.map (shown l.altflag) := by
  rw [copiedText, h.copied_eq]

section Directive

variable {text : List Byte} {ap args rest : List Arg} {l : Locals}

theorem stream_string_flags (htext : ∀ b ∈ text, isFlag b = true) {p : Word} {str : List Byte}
    (hflags : applyFlags (flagsWith none text) Locals.reset ap = some (l, .ptr p str :: rest)) :
    stream (cstr (directive text (ascii 's'))) ap =
      (putString record l (if p = 0 then cstr (bytes "(null)") else str) []).map
        fun out => (rest, out) := by
  rw [stream_flags htext (show isConversion (ascii 's') = true by decide), hflags, Option.bind_some,
    convert_string_arg]

/-- A string fills its field as long as the counter of the width stays an
`int`. -/
theorem stream_string_field (htext : ∀ b ∈ text, isFlag b = true) {p : Word} {str s : List Byte}
    (hflags : applyFlags (flagsWith none text) Locals.reset ap = some (l, .ptr p str :: rest))
    (hwidth : 0 ≤ l.width) (hlow : -2147483648 ≤ l.precision) (hhigh : l.precision < 2147483648)
    (hs : PointsTo l.precision p str s)
    (hcounts : Counts l.padc l.width (copiedLength l.precision s)) :
    stream (cstr (directive text (ascii 's'))) ap =
      some (rest, stringField l.padc l.width.toNat (copiedText l s)) := by
  obtain ⟨copied, stop, after, hcopies⟩ := hs.copies
  have hfield := putString_field hcopies.no_nul after hwidth (applyFlags_int hflags).1.2 hlow hhigh
    hcopies.stops (hcopies.length_eq.symm ▸ hcounts)
  rw [stream_string_flags htext hflags, hcopies.array_eq, hfield, hcopies.copiedText_eq]
  rfl

/-- Under the `-` flag the spaces behind a string fill its field, exactly when
the string does not run the counter of the width past the least `int`. -/
theorem stream_left_string_iff (htext : ∀ b ∈ text, isFlag b = true) {p : Word}
    {str s : List Byte}
    (hflags : applyFlags (flagsWith none text) Locals.reset ap = some (l, .ptr p str :: rest))
    (hwidth : 0 ≤ l.width) (hpadc : l.padc = ascii '-') (hs : PointsTo l.precision p str s) :
    stream (cstr (directive text (ascii 's'))) ap =
        some (rest, copiedText l s ++
          List.replicate (l.width.toNat - (copiedText l s).length) (ofChar (ascii ' '))) ↔
      copiedLength l.precision s ≤ l.width + 2147483648 := by
  obtain ⟨copied, stop, after, hcopies⟩ := hs.copies
  have hhigh := (applyFlags_int hflags).1.2
  have hlength := hcopies.length_eq
  have hroom := hcopies.length_lt
  have hput := putString_shown hcopies.no_nul after (show -2147483648 ≤ l.width by omega) hhigh
    (fun h => h.2 hpadc) hcopies.stops
  rw [stream_string_flags htext hflags, hcopies.array_eq, hput, copiedText_length,
    hcopies.copiedText_eq, hlength]
  simp only [Option.map_some, Option.some.injEq, Prod.mk.injEq, true_and,
    List.append_cancel_left_eq]
  constructor
  · intro heq
    have hspaces := congrArg List.length heq
    rw [List.length_replicate, List.length_replicate, int32] at hspaces
    omega
  · intro hcounts
    rw [int32_of_range (by omega) (by omega)]
    congr 1
    omega

/-- Padding in front of a text is not spaces behind it. -/
theorem padded_eq_iff {padc space : Word} (hne : padc ≠ space) (shownText : List Word)
    (front back fill : Nat) :
    List.replicate front padc ++ shownText ++ List.replicate back space =
      shownText ++ List.replicate fill space ↔ front = 0 ∧ back = fill := by
  constructor
  · intro heq
    have hlength := congrArg List.length heq
    have hcount := congrArg (List.count space) heq
    simp only [List.length_append, List.length_replicate] at hlength
    simp only [List.count_append, List.count_replicate_self,
      List.count_replicate, beq_iff_eq, if_neg hne] at hcount
    omega
  · rintro ⟨rfl, rfl⟩
    rfl

/-- A `0` flag behind the `-` flag puts zeros in front instead, so that only a
string which leaves nothing to fill comes out alike. -/
theorem stream_zero_string_iff (htext : ∀ b ∈ text, isFlag b = true) {p : Word}
    {str s : List Byte}
    (hflags : applyFlags (flagsWith none text) Locals.reset ap = some (l, .ptr p str :: rest))
    (hwidth : 0 ≤ l.width) (hpadc : l.padc = ascii '0') (hs : PointsTo l.precision p str s)
    (hshort : copiedLength l.precision s < 2147483648) :
    stream (cstr (directive text (ascii 's'))) ap =
        some (rest, copiedText l s ++
          List.replicate (l.width.toNat - (copiedText l s).length) (ofChar (ascii ' '))) ↔
      l.width = 0 ∨ l.width ≤ copiedLength l.precision s ∧
        2 * copiedLength l.precision s ≤ l.width + 2147483648 := by
  obtain ⟨copied, stop, after, hcopies⟩ := hs.copies
  have hhigh := (applyFlags_int hflags).1.2
  have hlength := hcopies.length_eq
  rw [copiedText_length, hcopies.copiedText_eq, stream_string_flags htext hflags, hcopies.array_eq,
    ← hlength]
  rw [← hlength] at hshort
  have hpad : int32 (l.width - copied.length) = l.width - copied.length :=
    int32_of_range (by omega) (by omega)
  by_cases hnone : l.width = 0
  · have hput := putString_shown hcopies.no_nul after (by omega) hhigh (fun h => by omega)
      hcopies.stops
    have hempty : (l.width - copied.length).toNat = l.width.toNat - copied.length := by omega
    rw [hput, hpad, hempty]
    exact iff_of_true rfl (Or.inl hnone)
  · have hleft : l.width > 0 ∧ l.padc ≠ ascii '-' := ⟨by omega, by rw [hpadc]; decide⟩
    have hint := (applyFlags_int hflags).2
    have hcount := strnlen_copied hcopies.no_nul after hint.1 hint.2 (by omega) hcopies.stops
    rw [putString_padded hcopies.no_nul after hleft hcopies.stops hcount, hpad, hpadc]
    simp only [Option.map_some, Option.some.injEq, Prod.mk.injEq, true_and]
    rw [padded_eq_iff (show ofChar (ascii '0') ≠ ofChar (ascii ' ') by decide)]
    unfold int32
    omega

/-- When the padding of a string is on its right, or has nothing to fill.  A
`0` flag behind the `-` flag puts the padding in front. -/
def StaysLeft (padc : Byte) (width : Int) (length : Nat) : Prop :=
  if padc = ascii '-' then length ≤ width + 2147483648
  else width = 0 ∨ width ≤ length ∧ 2 * length ≤ width + 2147483648

/-- Padding on the right is kept for strings and forgotten for numbers: a
directive with the `-` flag prints its text and fills the field with spaces
exactly when a number leaves nothing to fill, or a string stays on the left.
Behind a later `0` flag that is said of strings shorter than 2 GiB. -/
theorem stream_left_iff (htext : ∀ b ∈ text, isFlag b = true) (hminus : ascii '-' ∈ text)
    (hflags : applyFlags (flagsWith none text) Locals.reset ap = some (l, args))
    (hwidth : 0 ≤ l.width) :
    (∀ ch pre digits rest, numberParts ch l.lflag args = some (pre, digits, rest) →
      (stream (cstr (directive text ch)) ap =
          some (rest, (pre ++ digits ++
            List.replicate (l.width.toNat - (pre ++ digits).length) (ascii ' ')).map ofChar) ↔
        l.width ≤ digits.length)) ∧
    (∀ p str s rest, args = .ptr p str :: rest → PointsTo l.precision p str s →
      l.padc = ascii '-' ∨ copiedLength l.precision s < 2147483648 →
      (stream (cstr (directive text (ascii 's'))) ap =
          some (rest, copiedText l s ++
            List.replicate (l.width.toNat - (copiedText l s).length) (ofChar (ascii ' '))) ↔
        StaysLeft l.padc l.width (copiedLength l.precision s))) := by
  have hpadc := padc_of_minus hminus hflags
  constructor
  · intro ch pre digits rest hparts
    refine stream_left_number_iff htext hflags hwidth ?_ hparts
    rcases hpadc with heq | heq
    · rw [heq]
      decide
    · rw [heq]
      decide
  · rintro p str s rest rfl hs hshort
    rw [StaysLeft]
    split
    · rename_i heq
      exact stream_left_string_iff htext hflags hwidth heq hs
    · rename_i hne
      exact stream_zero_string_iff htext hflags hwidth (hpadc.resolve_left hne) hs
        (hshort.resolve_left hne)

end Directive

/-- The `-` flag pads a number with `-` on its left, where its text and the
spaces behind it would be `42` and three spaces. -/
theorem stream_left_42 :
    stream (cstr (bytes "%-5d")) [.int 42] = some ([], (bytes "---42").map ofChar) ∧
      bytes "---42" ≠ bytes "42" ++ List.replicate (5 - 2) (ascii ' ') := by
  refine ⟨?_, by decide⟩
  exact stream_number (show ∀ b ∈ bytes "-5", isFlag b = true by decide) rfl (by decide)
    (show numberParts (ascii 'd') 0 [.int 42] = some ([], bytes "42", []) by decide)

/-- A string that fills three of the five characters of its field. -/
theorem stream_left_abc :
    stream (cstr (bytes "%-5s")) [.ptr literalAddr (cstr (bytes "abc"))] =
      some ([], (bytes "abc  ").map ofChar) := by
  have hpoints : PointsTo (-1) literalAddr (cstr (bytes "abc")) (bytes "abc") :=
    @PointsTo.string (-1) literalAddr (bytes "abc") (by decide) (by decide) (by decide) []
  have hfive : pushDigit 0 (ascii '5') = 5 := by decide
  have hflags : applyFlags [.minus, .number (pushDigit 0 (ascii '5'))] Locals.reset
      [.ptr literalAddr (cstr (bytes "abc"))] =
        some ({ Locals.reset with padc := ascii '-', width := 5 },
          [.ptr literalAddr (cstr (bytes "abc"))]) := by
    rw [hfive]
    rfl
  have hleft := (stream_left_iff (show ∀ b ∈ bytes "-5", isFlag b = true by decide) (by decide)
    hflags (by decide)).2 _ _ _ _ rfl hpoints (Or.inl rfl)
  rw [StaysLeft, if_pos rfl] at hleft
  exact hleft.mpr (by decide)

/-! ## Flags in front of a width -/

/-- The flags that choose a padding mode, `#` and the length. -/
def modeFlags : List Byte := [ascii '-', ascii '0', ascii '#', ascii 'l']

def modeStep (l : Locals) (b : Byte) : Locals :=
  if b = ascii '-' ∨ b = ascii '0' then { l with padc := b }
  else if b = ascii '#' then { l with altflag := true }
  else { l with lflag := int32 (l.lflag + 1) }

/-- The locals behind some of these flags. -/
def modeLocals (flags : List Byte) : Locals := flags.foldl modeStep Locals.reset

/-- The padding mode: that of the last flag which sets one. -/
def padMode (flags : List Byte) : Byte :=
  flags.foldl (fun padc b => if b = ascii '-' ∨ b = ascii '0' then b else padc) (ascii ' ')

theorem modeLocals_fields (flags : List Byte) :
    (modeLocals flags).padc = padMode flags ∧ (modeLocals flags).width = -1 ∧
      (modeLocals flags).precision = -1 ∧
      ((modeLocals flags).altflag = true ↔ ascii '#' ∈ flags) := by
  induction flags using List.reverseRecOn with
  | nil => exact ⟨rfl, rfl, rfl, by decide⟩
  | append_singleton flags b ih =>
      obtain ⟨hpadc, hwidth, hprecision, halt⟩ := ih
      have hstep : modeLocals (flags ++ [b]) = modeStep (modeLocals flags) b := List.foldl_concat ..
      have hpad : padMode (flags ++ [b]) =
          if b = ascii '-' ∨ b = ascii '0' then b else padMode flags := List.foldl_concat ..
      rw [hstep, hpad, modeStep, List.mem_append, List.mem_singleton, ← halt]
      split
      · rename_i hpadflag
        have hne : ascii '#' ≠ b := by
          rintro rfl
          revert hpadflag
          decide
        exact ⟨rfl, hwidth, hprecision, by simp [hne]⟩
      · split
        · rename_i hhash
          exact ⟨hpadc, hwidth, hprecision, by simp [hhash]⟩
        · rename_i hhash
          exact ⟨hpadc, hwidth, hprecision, by simp [Ne.symm hhash]⟩

/-- One of these flags is applied in front of what follows it. -/
theorem applyFlags_modeStep {b : Byte} (hb : b ∈ modeFlags) (text : List Byte) (l : Locals)
    (ap : List Arg) :
    applyFlags (flagsWith none (b :: text)) l ap =
      applyFlags (flagsWith none text) (modeStep l b) ap := by
  simp only [modeFlags, List.mem_cons, List.not_mem_nil, or_false] at hb
  rcases hb with rfl | rfl | rfl | rfl
  all_goals rfl

theorem applyFlags_mode {flags : List Byte} (hflags : ∀ b ∈ flags, b ∈ modeFlags)
    (text : List Byte) (ap : List Arg) :
    applyFlags (flagsWith none (flags ++ text)) Locals.reset ap =
      applyFlags (flagsWith none text) (modeLocals flags) ap := by
  rw [modeLocals]
  generalize Locals.reset = l
  induction flags generalizing l with
  | nil => rfl
  | cons b flags ih =>
      rw [List.cons_append, applyFlags_modeStep (hflags b List.mem_cons_self)]
      exact ih (fun b hb => hflags b (List.mem_cons_of_mem _ hb)) _

theorem modeFlags_isFlag : ∀ b ∈ modeFlags, isFlag b = true := by decide

theorem isFlag_of_mode {flags text : List Byte} (hflags : ∀ b ∈ flags, b ∈ modeFlags)
    (htext : ∀ b ∈ text, isFlag b = true) : ∀ b ∈ flags ++ text, isFlag b = true := by
  intro b hb
  rcases List.mem_append.mp hb with hflag | hrest
  · exact modeFlags_isFlag b (hflags b hflag)
  · exact htext b hrest

/-! ## Width and precision from arguments -/

/-- The locals behind a width and a precision. -/
def fieldLocals (flags : List Byte) (width precision : Int) : Locals :=
  { modeLocals flags with width := width, precision := precision }

theorem fieldLocals_padc (flags : List Byte) (width precision : Int) :
    (fieldLocals flags width precision).padc = padMode flags :=
  (modeLocals_fields flags).1

theorem fieldLocals_altflag (flags : List Byte) (width precision : Int) :
    (fieldLocals flags width precision).altflag = decide (ascii '#' ∈ flags) := by
  rw [Bool.eq_iff_iff, decide_eq_true_eq]
  exact (modeLocals_fields flags).2.2.2

theorem applyFlags_stars {flags : List Byte} (hflags : ∀ b ∈ flags, b ∈ modeFlags) {w p : Word}
    (hw : 0 ≤ w.toInt) (rest : List Arg) :
    applyFlags (flagsWith none (flags ++ bytes "*.*")) Locals.reset (.int w :: .int p :: rest) =
      some (fieldLocals flags w.toInt p.toInt, rest) := by
  obtain ⟨_, hwidth, _, _⟩ := modeLocals_fields flags
  have hstars : flagsWith none (bytes "*.*") = [.star, .dot, .star] := rfl
  have hnone : (modeLocals flags).width < 0 := by omega
  have hsome : ¬ w.toInt < 0 := by omega
  rw [applyFlags_mode hflags, hstars, fieldLocals]
  simp only [applyFlags, Flag.apply, vaWord, Option.bind_eq_bind, Option.bind_some,
    Locals.processPrecision, hnone, hsome, if_true, if_false, Option.pure_def]

/-- A string in a field whose width and precision are given by arguments, in
every padding mode: the first bytes of the string, each shown, fill the field
as long as the counter of the width stays an `int`. -/
theorem stream_string_stars {flags : List Byte} (hflags : ∀ b ∈ flags, b ∈ modeFlags) {w p : Word}
    (hw : 0 ≤ w.toInt) {ptr : Word} {str s : List Byte} (hs : PointsTo p.toInt ptr str s)
    (hcounts : Counts (padMode flags) w.toInt (copiedLength p.toInt s)) (rest : List Arg) :
    stream (cstr (directive (flags ++ bytes "*.*") (ascii 's')))
        (.int w :: .int p :: .ptr ptr str :: rest) =
      some (rest, stringField (padMode flags) w.toInt.toNat
        ((s.take (copiedLength p.toInt s)).map (shown (decide (ascii '#' ∈ flags))))) := by
  have hfield := stream_string_field (isFlag_of_mode hflags (by decide))
    (applyFlags_stars hflags hw (.ptr ptr str :: rest)) hw (toInt_word_range p).1
    (toInt_word_range p).2 hs ((fieldLocals_padc flags _ _).symm ▸ hcounts)
  rw [hfield, fieldLocals_padc, copiedText, fieldLocals_altflag]
  rfl

/-- A precision that ends the string early, behind zeros, with one byte that is
not printable. -/
theorem stream_string_stars_zero :
    stream (cstr (bytes "%0#*.*s")) [.int 5, .int 2, .ptr literalAddr [7, ascii 'b', ascii 'c']] =
      some ([], (bytes "000?b").map ofChar) := by
  have hpoints : PointsTo (2 : Word).toInt literalAddr [7, ascii 'b', ascii 'c']
      [7, ascii 'b', ascii 'c'] :=
    @PointsTo.string 2 literalAddr [7, ascii 'b', ascii 'c'] (by decide) (by decide) (by decide) []
  have hcounts : Counts (padMode (bytes "0#")) (5 : Word).toInt
      (copiedLength (2 : Word).toInt [7, ascii 'b', ascii 'c']) := by
    rw [Counts]
    decide
  exact (stream_string_stars (show ∀ b ∈ bytes "0#", b ∈ modeFlags by decide) (by decide) hpoints
    hcounts []).trans (by decide)

/-- The padding counts a long string once and the copy counts it once more, so
the counter of the width wraps round and goes on to print spaces. -/
theorem stream_string_overlong {s : List Byte} (hnul : 0 ∉ s) (hlength : s.length = 1073741825)
    {ptr : Word} (hptr : ptr ≠ 0) :
    stream (cstr (bytes "%*.*s")) [.int 1, .int (-1), .ptr ptr (cstr s)] =
      some ([], s.map (shown false) ++ List.replicate 2147483647 (ofChar (ascii ' '))) := by
  have hflags := applyFlags_stars (show ∀ b ∈ [], b ∈ modeFlags by decide)
    (show 0 ≤ (1 : Word).toInt by decide) (p := -1) [.ptr ptr (cstr s)]
  have hstop : Stops (-1) s.length 0 := Or.inl ⟨rfl, Or.inl (by decide)⟩
  have hcount : strnlen (s ++ [0]) ((-1 : Int) % 4294967296).toNat = some s.length :=
    strnlen_copied hnul [] (by decide) (by decide) (by omega) hstop
  have hput := putString_padded hnul [] (l := fieldLocals [] 1 (-1)) (by decide) hstop hcount
  have hpad : int32 (1 - (1073741825 : Nat)) = -1073741824 := by decide
  have hspaces : int32 (min (-1073741824) 0 - (1073741825 : Nat)) = 2147483647 := by decide
  have hout : putString record (fieldLocals [] 1 (-1)) (cstr s) [] =
      some (s.map (shown false) ++ List.replicate 2147483647 (ofChar (ascii ' '))) := by
    refine hput.trans ?_
    rw [hlength]
    change some (List.replicate (int32 (1 - (1073741825 : Nat))).toNat _ ++ _ ++
      List.replicate (int32 (min (int32 (1 - (1073741825 : Nat))) 0 - (1073741825 : Nat))).toNat _)
        = _
    rw [hpad, hspaces]
    rfl
  have hdirective := stream_string_flags (show ∀ b ∈ bytes "*.*", isFlag b = true by decide) hflags
  rw [if_neg hptr] at hdirective
  refine hdirective.trans ?_
  have hsame : fieldLocals [] (1 : Word).toInt (-1 : Word).toInt = fieldLocals [] 1 (-1) := rfl
  rw [hsame, hout]
  rfl

/-- A string of one byte more than a gigabyte. -/
def longString : List Byte := List.replicate 1073741825 (ascii 'a')

/-- Its field of one character should be the string alone. -/
theorem stream_string_stars_long :
    PointsTo (-1) 0x10000000 (cstr longString) longString ∧
      stream (cstr (bytes "%*.*s")) [.int 1, .int (-1), .ptr 0x10000000 (cstr longString)] ≠
        some ([], stringField (padMode []) 1
          ((longString.take (copiedLength (-1) longString)).map (shown false))) := by
  have hlength : longString.length = 1073741825 := List.length_replicate
  have hnul : 0 ∉ longString := by
    intro hmem
    exact absurd (List.eq_of_mem_replicate hmem) (by decide)
  have hreach : cstr longString = reach (-1) longString ++ [] := (List.append_nil _).symm
  constructor
  · rw [hreach]
    exact PointsTo.string (by decide) hnul (by rw [hlength]; decide) []
  · rw [stream_string_overlong hnul hlength (by decide)]
    intro heq
    have hout := congrArg List.length (Prod.mk.inj (Option.some.inj heq)).2
    rw [stringField, if_neg (by decide), copiedLength, if_pos (by decide), List.take_length] at hout
    simp only [List.length_append, List.length_map, List.length_replicate, hlength] at hout
    omega

end JOSKernel.Lib.FormatFields
