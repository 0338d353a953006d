import JOSKernel.Lib.NumberText

/-!
# Formats that print nothing

Every item of a format prints at least one character, except a `%s` whose text
is empty and whose field has no width.  Whether a call prints anything can
therefore be read off its format and arguments.
-/

namespace JOSKernel.Lib.Printfmt

open JOSKernel.General.MachineInt
open JOSKernel.General.Positional
open JOSKernel.Lib.StringRoutines
open JOSKernel.Lib.NumberText

/-- The case `'s'` prints nothing: no field to fill, and no character to copy
into it. -/
def SilentString (l : Locals) (str : List Byte) : Prop :=
  l.width ≤ 0 ∧ (l.precision = 0 ∨ str.head? = some 0)

/-- Every item is a `%s` that prints nothing. -/
def Silent : List Item → List Arg → Prop
  | [], _ => True
  | .literal _ :: _, _ => False
  | .verbatim _ _ :: _, _ => False
  | .directive flags ch :: items, ap =>
      ∃ l p str ap' rest, ch = ascii 's' ∧ applyFlags flags Locals.reset ap = some (l, ap') ∧
        vaPtr ap' = some (p, str, rest) ∧
        SilentString l (if p = 0 then cstr (bytes "(null)") else str) ∧ Silent items rest

/-! ## Strings -/

/-- The copying loop extends the record, by nothing exactly when there is no
first character to copy. -/
theorem copyLoop_record (altflag : Bool) (str : List Byte) (width precision : Int)
    (seen : List Word) {width' : Int} {out' : List Word}
    (h : copyLoop record altflag str width precision seen = some (width', out')) :
    ∃ text, out' = seen ++ text ∧ (text = [] ↔ precision = 0 ∨ str.head? = some 0) ∧
      (text = [] → width' = width) := by
  induction str generalizing width precision seen with
  | nil => cases h
  | cons ch str ih =>
      rw [copyLoop] at h
      by_cases hnul : ch = 0
      · rw [if_pos hnul] at h
        cases h
        exact ⟨[], (List.append_nil _).symm, by simp [hnul], fun _ => rfl⟩
      · rw [if_neg hnul] at h
        have hhead : (ch :: str).head? ≠ some 0 := fun heq => hnul (Option.some.inj heq)
        by_cases hmore : precision < 0 ∨ precision - 1 ≥ 0
        · rw [if_pos hmore] at h
          obtain ⟨text, rfl, _, _⟩ := ih _ _ _ h
          refine ⟨_ :: text, by rw [record, List.append_assoc, List.singleton_append], ?_, ?_⟩
          · constructor
            · intro hnil
              cases hnil
            · rintro (hzero | heq)
              · omega
              · exact absurd heq hhead
          · intro hnil
            cases hnil
        · rw [if_neg hmore] at h
          cases h
          exact ⟨[], (List.append_nil _).symm, ⟨fun _ => Or.inl (by omega), fun _ => rfl⟩,
            fun _ => rfl⟩

/-- With no character to copy there is none to count. -/
theorem strnlen_empty {str : List Byte} {precision : Int}
    (h : precision = 0 ∨ str.head? = some 0) :
    ∀ n, strnlen str (precision % 4294967296).toNat = some n → n = 0 := by
  intro n hlen
  rcases h with rfl | hhead
  · have hnone : strnlen str 0 = some 0 := by cases str <;> rfl
    exact (Option.some.inj (hnone.symm.trans hlen)).symm
  · cases str with
    | nil => cases hhead
    | cons byte str =>
        cases hhead
        have hnone : ∀ size, strnlen (0 :: str) size = some 0 := by
          intro size
          cases size <;> rfl
        exact (Option.some.inj ((hnone _).symm.trans hlen)).symm

/-- A field with padding in front prints something: the padding, or else a
character to be padded. -/
theorem padded_string_prints {l : Locals} {str : List Byte} {out : List Word}
    (hwidth : l.width < 2147483648) (hpad : l.width > 0 ∧ l.padc ≠ ascii '-')
    (h : putString record l str [] = some out) : out ≠ [] := by
  rw [putString, padString, if_pos hpad] at h
  cases hlen : strnlen str (l.precision % 4294967296).toNat with
  | none =>
      rw [hlen] at h
      cases h
  | some n =>
      simp only [hlen, Option.bind_eq_bind, Option.bind_some] at h
      cases hcopy : copyLoop record l.altflag str (min (int32 (l.width - n)) 0) l.precision
          (putMany record (ofChar l.padc) (int32 (l.width - n)).toNat []) with
      | none =>
          rw [hcopy] at h
          cases h
      | some r =>
          obtain ⟨text, htext, hnil, _⟩ := copyLoop_record _ _ _ _ _ hcopy
          simp only [hcopy, Option.bind_some, Option.pure_def, Option.some.injEq] at h
          rw [putMany_record, List.nil_append] at htext
          rw [← h, putMany_record, htext]
          intro hempty
          simp only [List.append_eq_nil_iff, List.replicate_eq_nil_iff] at hempty
          obtain ⟨⟨hnone, hcopied⟩, _⟩ := hempty
          have hzero : n = 0 := strnlen_empty (hnil.mp hcopied) n hlen
          rw [hzero, int32_of_range (by omega) (by omega)] at hnone
          omega

theorem putString_record {l : Locals} {str : List Byte} {out : List Word}
    (hwidth : l.width < 2147483648)
    (h : putString record l str [] = some out) : out = [] ↔ SilentString l str := by
  by_cases hpad : l.width > 0 ∧ l.padc ≠ ascii '-'
  · have hprints := padded_string_prints hwidth hpad h
    constructor
    · intro hnil
      exact absurd hnil hprints
    · intro hsilent
      have := hsilent.1
      omega
  · rw [putString, padString, if_neg hpad] at h
    simp only [Option.bind_eq_bind, Option.bind_some] at h
    cases hcopy : copyLoop record l.altflag str l.width l.precision [] with
    | none =>
        rw [hcopy] at h
        cases h
    | some r =>
        obtain ⟨text, htext, hnil, hkept⟩ := copyLoop_record _ _ _ _ _ hcopy
        simp only [hcopy, Option.bind_some, Option.pure_def, Option.some.injEq] at h
        rw [← h, putMany_record, htext, List.nil_append, SilentString, ← hnil]
        simp only [List.append_eq_nil_iff, List.replicate_eq_nil_iff]
        constructor
        · rintro ⟨rfl, hspaces⟩
          rw [hkept rfl] at hspaces
          exact ⟨by omega, rfl⟩
        · rintro ⟨hnarrow, rfl⟩
          rw [hkept rfl]
          exact ⟨rfl, by omega⟩

/-! ## Other conversions -/

theorem number_prints (num : BitVec 64) (base : Base) (l : Locals) (seen : List Word) :
    number record num base l seen ≠ [] := by
  have hdigits : numeralText base num.toNat ≠ [] := by
    rw [numeralText]
    simp [numeral_ne_nil base.two_le]
  rw [number, printnum_eq_feed, feed_record]
  simp [hdigits]

theorem printfmt_stream {fmt : List Byte} (hfmt : fmt ∈ errorFormats) (ap : List Arg) :
    printfmt record fmt ap [] = (stream fmt ap).map Prod.snd :=
  congrArg (Option.map Prod.snd) (errorFormats_closed record _ (printfmt record) hfmt ap [])

theorem error_number_prints (ap : List Arg) {out : List Word}
    (h : printfmt record (cstr (bytes "error %d")) ap [] = some out) : out ≠ [] := by
  have hparse : parse (bytes "error %d") = .literal (ascii 'e') :: parse (bytes "rror %d") := rfl
  rw [printfmt_stream List.mem_cons_self, stream_cstr (by decide), hparse, eval_literal] at h
  cases hrest : eval (printfmt record) (parse (bytes "rror %d")) ap with
  | none =>
      rw [hrest] at h
      cases h
  | some r =>
      rw [hrest] at h
      cases h
      exact List.cons_ne_nil _ _

theorem label_string {ch : Byte} (h : switchLabel ch = .string) : ch = ascii 's' := by
  revert ch
  decide

/-- Every entry of the table has a first character. -/
theorem errorTable_head {p : String} (h : some p ∈ errorTable) :
    (cstr (bytes p)).head? ≠ some 0 := by
  simp only [errorTable, List.mem_cons, Option.some.injEq, List.not_mem_nil, or_false, reduceCtorEq,
    false_or] at h
  rcases h with rfl | rfl | rfl | rfl | rfl | rfl
  all_goals decide

theorem error_string_prints {p : String} (hp : some p ∈ errorTable) {out : List Word}
    (h : printfmt record (cstr (bytes "%s")) [literal p] [] = some out) : out ≠ [] := by
  rw [printfmt_stream (List.mem_cons_of_mem _ List.mem_cons_self),
    stream_directive (by decide) (show parse _ = [.directive [] (ascii 's')] from rfl)] at h
  have hconvert : convert record (printfmt record) (ascii 's') Locals.reset [literal p] [] =
      (putString record Locals.reset (cstr (bytes p)) []).bind fun out => some ([], out) := rfl
  rw [applyFlags, Option.bind_some, hconvert] at h
  cases hput : putString record Locals.reset (cstr (bytes p)) [] with
  | none =>
      rw [hput] at h
      cases h
  | some text =>
      rw [hput] at h
      cases h
      intro hnil
      rcases ((putString_record (by decide) hput).mp hnil).2 with hprecision | hhead
      · exact absurd hprecision (by decide)
      · exact errorTable_head hp hhead

/-- The two nested formats print at least their own text. -/
theorem putError_prints (err : Int) {out : List Word}
    (h : putError (printfmt record) err [] = some out) : out ≠ [] := by
  rw [putError] at h
  generalize (if err < 0 then int32 (-err) else err) = err at h
  split at h
  · exact error_number_prints _ h
  · cases hentry : errorString err with
    | none =>
        rw [hentry] at h
        cases h
    | some entry =>
        rw [hentry] at h
        cases entry with
        | none => exact error_number_prints _ h
        | some p =>
            refine error_string_prints ?_ h
            rw [errorString] at hentry
            split at hentry
            · exact List.mem_of_getElem? hentry
            · cases hentry

/-- A conversion that prints nothing is a `%s` that prints nothing. -/
theorem convert_record_nil {ch : Byte} {l : Locals} {ap rest : List Arg} {out : List Word}
    (hwidth : l.width < 2147483648)
    (h : convert record (printfmt record) ch l ap [] = some (rest, out)) :
    out = [] ↔ ∃ p str, ch = ascii 's' ∧ vaPtr ap = some (p, str, rest) ∧
      SilentString l (if p = 0 then cstr (bytes "(null)") else str) := by
  have hother (hlabel : switchLabel ch ≠ .string) (hprints : out ≠ []) :
      out = [] ↔ ∃ p str, ch = ascii 's' ∧ vaPtr ap = some (p, str, rest) ∧
        SilentString l (if p = 0 then cstr (bytes "(null)") else str) := by
    constructor
    · intro hnil
      exact absurd hnil hprints
    · rintro ⟨p, str, rfl, _⟩
      exact absurd rfl hlabel
  unfold convert at h
  cases hlabel : switchLabel ch with
  | string =>
      rw [hlabel] at h
      obtain ⟨⟨p, str, ap'⟩, hptr, h⟩ := Option.bind_eq_some_iff.mp h
      obtain ⟨text, hput, h⟩ := Option.bind_eq_some_iff.mp h
      cases h
      rw [putString_record hwidth hput, hptr]
      constructor
      · intro hsilent
        exact ⟨p, str, label_string hlabel, rfl, hsilent⟩
      · rintro ⟨p', str', _, hsame, hsilent⟩
        cases hsame
        exact hsilent
  | char =>
      refine hother (by rw [hlabel]; decide) ?_
      rw [hlabel] at h
      obtain ⟨r, _, h⟩ := Option.bind_eq_some_iff.mp h
      cases h
      exact List.cons_ne_nil _ _
  | error =>
      refine hother (by rw [hlabel]; decide) ?_
      rw [hlabel] at h
      obtain ⟨r, _, h⟩ := Option.bind_eq_some_iff.mp h
      obtain ⟨text, hput, h⟩ := Option.bind_eq_some_iff.mp h
      cases h
      exact putError_prints _ hput
  | decimal =>
      refine hother (by rw [hlabel]; decide) ?_
      rw [hlabel] at h
      obtain ⟨r, _, h⟩ := Option.bind_eq_some_iff.mp h
      dsimp only at h
      split at h
      · cases h
        exact number_prints _ _ _ _
      · cases h
        exact number_prints _ _ _ _
  | unsigned | octal | pointer | hex =>
      refine hother (by rw [hlabel]; decide) ?_
      rw [hlabel] at h
      obtain ⟨r, _, h⟩ := Option.bind_eq_some_iff.mp h
      cases h
      exact number_prints _ _ _ _
  | percent =>
      refine hother (by rw [hlabel]; decide) ?_
      rw [hlabel] at h
      cases h
      exact List.cons_ne_nil _ _
  | _ =>
      rw [hlabel] at h
      cases h

/-- The case `'s'` takes one argument. -/
theorem convert_string_rest {l : Locals} {ap rest rest' : List Arg} {p : Word} {str : List Byte}
    {out : List Word} (hptr : vaPtr ap = some (p, str, rest))
    (h : convert record (printfmt record) (ascii 's') l ap [] = some (rest', out)) :
    rest' = rest := by
  have hlabel : switchLabel (ascii 's') = .string := by decide
  rw [convert, hlabel] at h
  obtain ⟨r, hptr', h⟩ := Option.bind_eq_some_iff.mp h
  obtain ⟨text, _, h⟩ := Option.bind_eq_some_iff.mp h
  rw [hptr] at hptr'
  cases hptr'
  cases h
  rfl

/-! ## Field widths -/

/-- A number in a flag text is an `int`. -/
def Flag.Ranged : Flag → Prop
  | .number n => n < 2147483648
  | _ => True

theorem number_not_mem_labelFlag (label : Label) (n : Int) : .number n ∉ labelFlag label := by
  cases label <;> simp [labelFlag]

/-- The digit loop computes the numbers of a flag text in an `int`. -/
theorem flagsWith_values {P : Int → Prop} (hint : ∀ z, P (int32 z))
    (number : Option (Int × Byte)) (text : List Byte) {n : Int}
    (hmem : .number n ∈ flagsWith number text) : P n := by
  induction text generalizing number with
  | nil =>
      cases number with
      | none => cases hmem
      | some _ =>
          rw [flagsWith, List.mem_singleton] at hmem
          cases hmem
          exact hint _
  | cons ch text ih =>
      cases number with
      | none =>
          rw [flagsWith] at hmem
          split at hmem
          · exact ih _ hmem
          · exact ih _ ((List.mem_append.mp hmem).resolve_left (number_not_mem_labelFlag _ n))
      | some _ =>
          rw [flagsWith] at hmem
          split at hmem
          · exact ih _ hmem
          · rcases List.mem_cons.mp hmem with hhead | htail
            · cases hhead
              exact hint _
            · exact ih _ ((List.mem_append.mp htail).resolve_left (number_not_mem_labelFlag _ n))

theorem flagsWith_ranged (number : Option (Int × Byte)) (text : List Byte) :
    ∀ flag ∈ flagsWith number text, flag.Ranged := by
  intro flag hflag
  cases flag with
  | number n => exact flagsWith_values (P := fun z => z < 2147483648) int32_lt number text hflag
  | _ => trivial

/-- The flags of a directive are those of some flag text. -/
theorem parseWith_directive (mode : Option (List Byte)) (fmt : List Byte) {flags : List Flag}
    {ch : Byte} (h : .directive flags ch ∈ parseWith mode fmt) :
    ∃ text, flags = flagsWith none text := by
  induction fmt generalizing mode with
  | nil =>
      cases mode with
      | none => cases h
      | some text =>
          rw [parseWith, List.mem_singleton] at h
          cases h
  | cons byte fmt ih =>
      cases mode with
      | none =>
          rw [parseWith] at h
          split at h
          · exact ih _ h
          · rcases List.mem_cons.mp h with hhead | htail
            · cases hhead
            · exact ih _ htail
      | some text =>
          rw [parseWith] at h
          split at h
          · exact ih _ h
          · split at h
            · rcases List.mem_cons.mp h with hhead | htail
              · cases hhead
              · exact ih _ htail
            · rcases List.mem_cons.mp h with hhead | htail
              · cases hhead
                exact ⟨text, rfl⟩
              · exact ih _ htail

theorem Flag.apply_values {P : Int → Prop} (hint : ∀ z, P (int32 z)) {flag : Flag}
    (hflag : ∀ n, flag = .number n → P n) {l l' : Locals} {ap ap' : List Arg}
    (hl : P l.width ∧ P l.precision) (h : flag.apply l ap = some (l', ap')) :
    P l'.width ∧ P l'.precision := by
  have hvalue {z : Int} (hlow : -2147483648 ≤ z) (hhigh : z < 2147483648) : P z := by
    rw [← int32_of_range hlow hhigh]
    exact hint z
  have hprocess (n : Int) (hn : P n) :
      P ({ l with precision := n }.processPrecision).width ∧
        P ({ l with precision := n }.processPrecision).precision := by
    rw [Locals.processPrecision]
    split
    · exact ⟨hn, hvalue (z := -1) (by decide) (by decide)⟩
    · exact ⟨hl.1, hn⟩
  cases flag with
  | number n =>
      cases h
      exact hprocess n (hflag n rfl)
  | star =>
      obtain ⟨r, _, h⟩ := Option.bind_eq_some_iff.mp h
      cases h
      exact hprocess _ (hvalue (toInt_word_range _).1 (toInt_word_range _).2)
  | dot =>
      cases h
      refine ⟨?_, hl.2⟩
      dsimp only
      split
      · exact hvalue (by decide) (by decide)
      · exact hl.1
  | minus | zero | hash | long =>
      cases h
      exact hl

/-- Whatever holds of every `int` holds of the width and the precision that
flags leave. -/
theorem applyFlags_values {P : Int → Prop} (hint : ∀ z, P (int32 z)) {flags : List Flag}
    (hflags : ∀ n, .number n ∈ flags → P n) {l l' : Locals} {ap ap' : List Arg}
    (hl : P l.width ∧ P l.precision) (h : applyFlags flags l ap = some (l', ap')) :
    P l'.width ∧ P l'.precision := by
  induction flags generalizing l ap with
  | nil =>
      cases h
      exact hl
  | cons flag flags ih =>
      obtain ⟨r, hfirst, h⟩ := Option.bind_eq_some_iff.mp h
      have hnext := Flag.apply_values hint
        (fun n heq => hflags n (heq ▸ List.mem_cons_self)) hl hfirst
      exact ih (fun n hmem => hflags n (List.mem_cons_of_mem _ hmem)) hnext h

theorem applyFlags_narrow {flags : List Flag} (hflags : ∀ flag ∈ flags, flag.Ranged)
    {l l' : Locals} {ap ap' : List Arg}
    (hl : l.width < 2147483648 ∧ l.precision < 2147483648)
    (h : applyFlags flags l ap = some (l', ap')) : l'.width < 2147483648 :=
  (applyFlags_values (P := fun z => z < 2147483648) int32_lt
    (fun n hmem => hflags (.number n) hmem) hl h).1

/-- The width and the precision of a directive are `int`s. -/
theorem applyFlags_int {text : List Byte} {l : Locals} {ap args : List Arg}
    (h : applyFlags (flagsWith none text) Locals.reset ap = some (l, args)) :
    (-2147483648 ≤ l.width ∧ l.width < 2147483648) ∧
      (-2147483648 ≤ l.precision ∧ l.precision < 2147483648) := by
  have hint (z : Int) : -2147483648 ≤ int32 z ∧ int32 z < 2147483648 := by
    unfold int32
    omega
  have hnumber (n : Int) (hmem : .number n ∈ flagsWith none text) :
      -2147483648 ≤ n ∧ n < 2147483648 :=
    flagsWith_values (P := fun z => -2147483648 ≤ z ∧ z < 2147483648) hint none text hmem
  exact applyFlags_values (P := fun z => -2147483648 ≤ z ∧ z < 2147483648) hint hnumber
    (by decide) h

/-! ## Whole formats -/

theorem eval_nil_iff {items : List Item}
    (hitems : ∀ flags ch, .directive flags ch ∈ items → ∀ flag ∈ flags, flag.Ranged)
    {ap rest : List Arg} {out : List Word}
    (h : eval (printfmt record) items ap = some (rest, out)) :
    out = [] ↔ Silent items ap := by
  induction items generalizing ap out with
  | nil =>
      cases h
      exact ⟨fun _ => trivial, fun _ => rfl⟩
  | cons item items ih =>
      cases item with
      | literal ch =>
          rw [eval_literal] at h
          obtain ⟨r, _, h⟩ := Option.map_eq_some_iff.mp h
          cases h
          constructor
          · intro hnil
            cases hnil
          · intro hsilent
            cases hsilent
      | verbatim flags text =>
          rw [eval_verbatim] at h
          obtain ⟨f, _, h⟩ := Option.bind_eq_some_iff.mp h
          obtain ⟨r, _, h⟩ := Option.map_eq_some_iff.mp h
          cases h
          constructor
          · intro hnil
            cases hnil
          · intro hsilent
            cases hsilent
      | directive flags ch =>
          rw [eval_directive] at h
          obtain ⟨⟨l, ap'⟩, happly, h⟩ := Option.bind_eq_some_iff.mp h
          obtain ⟨⟨ap'', text⟩, hconvert, h⟩ := Option.bind_eq_some_iff.mp h
          obtain ⟨r, hrest, h⟩ := Option.map_eq_some_iff.mp h
          cases h
          have hwidth := applyFlags_narrow (hitems flags ch List.mem_cons_self)
            (show Locals.reset.width < 2147483648 ∧ Locals.reset.precision < 2147483648 by decide)
            happly
          have htext := convert_record_nil hwidth hconvert
          have htail := ih (fun flags ch hmem => hitems flags ch (List.mem_cons_of_mem _ hmem)) hrest
          rw [List.append_eq_nil_iff, htext, htail, Silent]
          constructor
          · rintro ⟨⟨p, str, hch, hptr, hsilent⟩, hsilentRest⟩
            exact ⟨l, p, str, ap', ap'', hch, happly, hptr, hsilent, hsilentRest⟩
          · rintro ⟨l', p, str, ap₁, ap₂, hch, happly', hptr, hsilent, hsilentRest⟩
            rw [happly] at happly'
            cases happly'
            subst hch
            have hsame := convert_string_rest hptr hconvert
            subst hsame
            exact ⟨⟨p, str, rfl, hptr, hsilent⟩, hsilentRest⟩

/-- A call prints nothing exactly when its format and arguments are silent. -/
theorem stream_nil_iff {fmt : List Byte} (hnul : 0 ∉ fmt) {ap rest : List Arg} {out : List Word}
    (h : stream (cstr fmt) ap = some (rest, out)) : out = [] ↔ Silent (parse fmt) ap := by
  rw [stream_cstr hnul] at h
  refine eval_nil_iff ?_ h
  intro flags ch hmem
  obtain ⟨text, rfl⟩ := parseWith_directive _ _ hmem
  exact flagsWith_ranged none text

end JOSKernel.Lib.Printfmt
