import JOSKernel.Lib.ErrorText

/-!
# Walking a format to its end

Every NUL-terminated format is walked up to its NUL and no further, whatever it
contains, as long as the arguments it asks for are there.  A bad escape moves
the pointer back to its own `%` and no further, and comes out as it stands in
the format.
-/

namespace JOSKernel.Lib.Printfmt

open JOSKernel.General.MachineInt
open JOSKernel.General.ByteCursor
open JOSKernel.Lib.ErrorText
open JOSKernel.Lib.FormatText
open JOSKernel.Lib.StringRoutines

/-! ## The arguments of a format -/

/-- A string that `%s` can copy: it has a NUL, or one byte more than the
precision. -/
def Readable (precision : Int) (str : List Byte) : Prop :=
  0 ∈ str ∨ 0 ≤ precision ∧ precision < str.length

instance (precision : Int) (str : List Byte) : Decidable (Readable precision str) :=
  inferInstanceAs (Decidable (_ ∨ _))

/-- The arguments behind the one that a conversion takes.  There is no result
when that argument is missing, or is an error code that is not `valid`. -/
def takeArg (valid : Word → Bool) (ch : Byte) (l : Locals) (ap : List Arg) : Option (List Arg) :=
  match switchLabel ch with
  | .char | .pointer => (vaWord ap).map Prod.snd
  | .error => do
      let (v, ap) ← vaWord ap
      if valid v then some ap else none
  | .string => do
      let (p, str, ap) ← vaPtr ap
      if p = 0 ∨ Readable l.precision str then some ap else none
  | .decimal | .unsigned | .octal | .hex => (getuint ap l.lflag).map Prod.snd
  | .percent => some ap
  | _ => none

/-- The arguments that a list of items leaves over. -/
def takeArgs (valid : Word → Bool) : List Item → List Arg → Option (List Arg)
  | [], ap => some ap
  | .literal _ :: items, ap => takeArgs valid items ap
  | .directive flags ch :: items, ap => do
      let (l, ap) ← applyFlags flags Locals.reset ap
      let ap ← takeArg valid ch l ap
      takeArgs valid items ap
  | .verbatim flags _ :: items, ap => do
      let (_, ap) ← applyFlags flags Locals.reset ap
      takeArgs valid items ap

/-! ## Conversions that return -/

/-- Signed and unsigned numbers are taken alike. -/
theorem getint_rest (ap : List Arg) (lflag : Int) :
    (getint ap lflag).map Prod.snd = (getuint ap lflag).map Prod.snd := by
  rw [getint, getuint]
  split
  · rfl
  · cases vaWord ap <;> rfl

theorem strnlen_some {str : List Byte} {size : Nat} (h : 0 ∈ str ∨ size ≤ str.length) :
    ∃ n, strnlen str size = some n := by
  induction str generalizing size with
  | nil =>
      cases size with
      | zero => exact ⟨0, rfl⟩
      | succ size =>
          rcases h with hmem | hle
          · cases hmem
          · cases hle
  | cons byte str ih =>
      cases size with
      | zero => exact ⟨0, rfl⟩
      | succ size =>
          rw [strnlen]
          by_cases hbyte : byte = 0
          · exact ⟨0, if_pos hbyte⟩
          · rw [if_neg hbyte]
            have hrest : 0 ∈ str ∨ size ≤ str.length := by
              rcases h with hmem | hle
              · exact Or.inl ((List.mem_cons.mp hmem).resolve_left fun heq => hbyte heq.symm)
              · exact Or.inr (Nat.le_of_succ_le_succ hle)
            obtain ⟨n, hn⟩ := ih hrest
            exact ⟨n + 1, by rw [hn]; rfl⟩

section Sink

variable {σ : Type} (putch : Word → σ → σ)

theorem copyLoop_some (altflag : Bool) {str : List Byte} {precision : Int}
    (h : Readable precision str) (width : Int) (s : σ) :
    ∃ r, copyLoop putch altflag str width precision s = some r := by
  induction str generalizing width precision s with
  | nil =>
      rcases h with hmem | ⟨hlow, hlength⟩
      · cases hmem
      · rw [List.length_nil] at hlength
        omega
  | cons ch str ih =>
      rw [copyLoop]
      by_cases hnul : ch = 0
      · exact ⟨_, if_pos hnul⟩
      · rw [if_neg hnul]
        by_cases hmore : precision < 0 ∨ precision - 1 ≥ 0
        · rw [if_pos hmore]
          apply ih
          rcases h with hmem | ⟨hlow, hlength⟩
          · exact Or.inl ((List.mem_cons.mp hmem).resolve_left fun heq => hnul heq.symm)
          · rw [List.length_cons] at hlength
            rw [if_neg (by omega)]
            exact Or.inr ⟨by omega, by omega⟩
        · exact ⟨_, if_neg hmore⟩

/-- A string that can be copied is copied, and its padding is counted out. -/
theorem putString_some {l : Locals} {str : List Byte} (h : Readable l.precision str) (s : σ) :
    ∃ s', putString putch l str s = some s' := by
  have hpad : ∃ r, padString putch l str s = some r := by
    rw [padString]
    split
    · have hlength : 0 ∈ str ∨ (l.precision % 4294967296).toNat ≤ str.length := by
        rcases h with hmem | ⟨hlow, hlength⟩
        · exact Or.inl hmem
        · exact Or.inr (by omega)
      obtain ⟨n, hn⟩ := strnlen_some hlength
      rw [hn]
      exact ⟨_, rfl⟩
    · exact ⟨_, rfl⟩
  obtain ⟨r, hr⟩ := hpad
  obtain ⟨r', hr'⟩ := copyLoop_some putch l.altflag h r.1 r.2
  rw [putString, hr]
  simp only [Option.bind_eq_bind, Option.bind_some, hr']
  exact ⟨_, rfl⟩

/-- A conversion returns, and leaves over the arguments that `takeArg` does. -/
def Returns (valid : Word → Bool) (conv : Byte → Locals → List Arg → σ → Option (List Arg × σ)) :
    Prop :=
  ∀ ch l ap rest, takeArg valid ch l ap = some rest → ∀ s, ∃ s', conv ch l ap s = some (rest, s')

/-- Items whose arguments are all there are printed to the last. -/
theorem runItems_some {valid : Word → Bool}
    {conv : Byte → Locals → List Arg → σ → Option (List Arg × σ)} (hconv : Returns valid conv)
    {items : List Item} {ap rest : List Arg} (hargs : takeArgs valid items ap = some rest) (s : σ) :
    ∃ s', runItems putch conv items ap s = some (rest, s') := by
  induction items generalizing ap s with
  | nil =>
      cases hargs
      exact ⟨s, rfl⟩
  | cons item items ih =>
      cases item with
      | literal ch => exact ih hargs _
      | verbatim flags text =>
          obtain ⟨r, hflags, hargs⟩ := Option.bind_eq_some_iff.mp hargs
          rw [runItems, hflags]
          exact ih hargs _
      | directive flags ch =>
          obtain ⟨r, hflags, hargs⟩ := Option.bind_eq_some_iff.mp hargs
          obtain ⟨left, htake, hargs⟩ := Option.bind_eq_some_iff.mp hargs
          obtain ⟨s', hs'⟩ := hconv ch r.1 r.2 left htake s
          rw [runItems, hflags]
          simp only [Option.bind_eq_bind, Option.bind_some, hs']
          exact ih hargs s'

/-- Conversions that return as often, with the same results. -/
theorem runItems_mono {conv conv' : Byte → Locals → List Arg → σ → Option (List Arg × σ)}
    (hconv : ∀ ch l ap s r, conv ch l ap s = some r → conv' ch l ap s = some r)
    {items : List Item} {ap : List Arg} {s : σ} {r : List Arg × σ}
    (h : runItems putch conv items ap s = some r) : runItems putch conv' items ap s = some r := by
  induction items generalizing ap s with
  | nil => exact h
  | cons item items ih =>
      cases item with
      | literal ch => exact ih h
      | verbatim flags text =>
          obtain ⟨f, hflags, h⟩ := Option.bind_eq_some_iff.mp h
          rw [runItems, hflags]
          exact ih h
      | directive flags ch =>
          obtain ⟨f, hflags, h⟩ := Option.bind_eq_some_iff.mp h
          obtain ⟨c, hc, h⟩ := Option.bind_eq_some_iff.mp h
          rw [runItems, hflags]
          simp only [Option.bind_eq_bind, Option.bind_some, hconv _ _ _ _ _ hc]
          exact ih h

/-! ## Error codes without an entry -/

/-- The case `'e'` where a read outside `error_string` finds `outside`. -/
def putErrorFrom (outside : Option String) (printfmt : List Byte → List Arg → σ → Option σ)
    (err : Int) (s : σ) : Option σ :=
  let unknown :=
    printfmt (cstr (bytes "error %d")) [.int (BitVec.ofInt 32 (errorMagnitude err))] s
  match errorIndex err with
  | none => unknown
  | some i =>
      match (errorString i).getD outside with
      | none => unknown
      | some p => printfmt (cstr (bytes "%s")) [literal p] s

/-- The conversions of a formatter whose reads outside `error_string` find
`outside`. -/
def convertFrom (outside : Option String) (ch : Byte) (l : Locals) (ap : List Arg) (s : σ) :
    Option (List Arg × σ) :=
  match switchLabel ch with
  | .error => do
      let (v, ap) ← vaWord ap
      return (ap, ← putErrorFrom outside (printfmt putch) v.toInt s)
  | _ => convert putch (printfmt putch) ch l ap s

/-- Where the formatter has a result, the table has no part in it. -/
theorem convert_convertFrom (outside : Option String) {ch : Byte} {l : Locals} {ap : List Arg}
    {s : σ} {r : List Arg × σ} (h : convert putch (printfmt putch) ch l ap s = some r) :
    convertFrom putch outside ch l ap s = some r := by
  rw [convertFrom]
  split
  · rename_i hlabel
    rw [convert, hlabel] at h
    obtain ⟨v, hv, h⟩ := Option.bind_eq_some_iff.mp h
    obtain ⟨s', hput, h⟩ := Option.bind_eq_some_iff.mp h
    have hfrom : putErrorFrom outside (printfmt putch) v.1.toInt s = some s' := by
      rw [putError_eq] at hput
      rw [putErrorFrom]
      cases hindex : errorIndex v.1.toInt with
      | none =>
          rw [hindex] at hput
          exact hput
      | some i =>
          rw [hindex] at hput
          obtain ⟨entry, hentry, hput⟩ := Option.bind_eq_some_iff.mp hput
          dsimp only
          rw [hentry]
          exact hput
    rw [hv]
    simp only [Option.bind_eq_bind, Option.bind_some, hfrom]
    exact h
  · exact h

/-- Both nested calls return. -/
theorem putErrorFrom_some (outside : Option String) (err : Int) (s : σ) :
    ∃ s', putErrorFrom outside (printfmt putch) err s = some s' := by
  have hunknown (n : Word) : ∃ s', printfmt putch (cstr (bytes "error %d")) [.int n] s = some s' := by
    have hprints := (Prints.plain (show (bytes "error ").all isPlain = true by decide)).append
      (Prints.signed n)
    exact ⟨_, printfmt_prints putch List.mem_cons_self hprints s⟩
  have hmessage (p : String) : ∃ s', printfmt putch (cstr (bytes "%s")) [literal p] s = some s' := by
    have hread : Readable Locals.reset.precision (cstr (bytes p)) := Or.inl (by simp [cstr])
    obtain ⟨s', hs'⟩ := putString_some putch hread s
    refine ⟨s', ?_⟩
    have hlabel : switchLabel (ascii 's') = .string := by decide
    have hne : literalAddr ≠ 0 := by decide
    rw [printfmt, vprintfmtWith_cstr putch _ (by decide),
      show parse (bytes "%s") = [.directive [] (ascii 's')] from rfl]
    simp only [runItems, applyFlags, Option.bind_eq_bind, Option.bind_some, convert, hlabel, literal,
      vaPtr, if_neg hne, hs']
    rfl
  rw [putErrorFrom]
  split
  · exact hunknown _
  · split
    · exact hunknown _
    · exact hmessage _

/-- The conversions other than `%e` return. -/
theorem convert_some {valid : Word → Bool} {ch : Byte} (hlabel : switchLabel ch ≠ .error)
    {l : Locals} {ap rest : List Arg} (htake : takeArg valid ch l ap = some rest) (s : σ) :
    ∃ s', convert putch (printfmt putch) ch l ap s = some (rest, s') := by
  rw [takeArg] at htake
  rw [convert]
  cases hcase : switchLabel ch with
  | error => exact absurd hcase hlabel
  | char | pointer | unsigned | octal | hex =>
      rw [hcase] at htake
      obtain ⟨r, hr, rfl⟩ := Option.map_eq_some_iff.mp htake
      dsimp only
      rw [hr]
      exact ⟨_, rfl⟩
  | string =>
      rw [hcase] at htake
      obtain ⟨⟨p, str, left⟩, hptr, htake⟩ := Option.bind_eq_some_iff.mp htake
      dsimp only at htake ⊢
      split at htake
      · rename_i hread
        cases htake
        have hshown : Readable l.precision (if p = 0 then cstr (bytes "(null)") else str) := by
          split
          · exact Or.inl (by decide)
          · rename_i hp
            exact hread.resolve_left hp
        obtain ⟨s', hs'⟩ := putString_some putch hshown s
        rw [hptr]
        simp only [Option.bind_eq_bind, Option.bind_some, hs']
        exact ⟨_, rfl⟩
      · cases htake
  | decimal =>
      rw [hcase, ← getint_rest] at htake
      obtain ⟨r, hr, rfl⟩ := Option.map_eq_some_iff.mp htake
      dsimp only
      rw [hr]
      simp only [Option.bind_eq_bind, Option.bind_some]
      split
      · exact ⟨_, rfl⟩
      · exact ⟨_, rfl⟩
  | percent =>
      rw [hcase] at htake
      cases htake
      exact ⟨_, rfl⟩
  | _ =>
      rw [hcase] at htake
      cases htake

theorem convertFrom_returns (outside : Option String) :
    Returns (fun _ => true) (convertFrom putch outside) := by
  intro ch l ap rest htake s
  rw [convertFrom]
  split
  · rename_i hlabel
    rw [takeArg, hlabel] at htake
    obtain ⟨r, hr, htake⟩ := Option.bind_eq_some_iff.mp htake
    cases htake
    obtain ⟨s', hs'⟩ := putErrorFrom_some putch outside r.1.toInt s
    rw [hr]
    simp only [Option.bind_eq_bind, Option.bind_some, hs']
    exact ⟨_, rfl⟩
  · rename_i hlabel
    exact convert_some putch hlabel htake s

/-- The error codes whose magnitude is an `int`. -/
def hasMagnitude (err : Word) : Bool := err != 0x80000000#32

theorem convert_returns : Returns hasMagnitude (convert putch (printfmt putch)) := by
  intro ch l ap rest htake s
  by_cases hlabel : switchLabel ch = .error
  · rw [takeArg, hlabel] at htake
    obtain ⟨r, hr, htake⟩ := Option.bind_eq_some_iff.mp htake
    dsimp only at htake
    split at htake
    · rename_i hvalid
      cases htake
      have hput := putError_text putch (lt_toInt_of_ne (bne_iff_ne.mp hvalid)) (toInt_word_range r.1).2 s
      rw [convert, hlabel]
      dsimp only
      rw [hr]
      simp only [Option.bind_eq_bind, Option.bind_some, hput]
      exact ⟨_, rfl⟩
    · cases htake
  · exact convert_some putch hlabel htake s

/-! ## Every format is walked to its NUL -/

/-- `vprintfmt` with two changes that can only make it stop early or go on
where it has no result.  Its pointer cannot be moved below the `%` of the
escape it is in, and a read outside `error_string` finds `outside`.  As in
`vprintfmt`, the array of the format ends with its NUL. -/
def guardedPrintfmt (outside : Option String) (fmt : List Byte) (ap : List Arg) (s : σ) :
    Option (List Arg × σ) :=
  walkLoop putch (convertFrom putch outside) (fun _ => []) (fmt.length + 1) (Cursor.start fmt) ap s

theorem guardedPrintfmt_cstr (outside : Option String) {fmt : List Byte} (hnul : 0 ∉ fmt)
    (ap : List Arg) (s : σ) :
    guardedPrintfmt putch outside (cstr fmt) ap s =
      runItems putch (convertFrom putch outside) (parse fmt) ap s := by
  refine walkLoop_eq_runItems putch _ _ _ [] fmt [] hnul ap s ?_
  simp only [cstr, List.length_append]
  omega

/-- Any format whose arguments are there is walked to its NUL, inside its array
and inside each escape, and takes exactly those arguments.  `vprintfmt` itself
does the same unless an error code has no magnitude. -/
theorem vprintfmt_walk {fmt : List Byte} (hnul : 0 ∉ fmt) {ap rest : List Arg}
    (hargs : takeArgs (fun _ => true) (parse fmt) ap = some rest) (outside : Option String)
    (s : σ) :
    ∃ s', guardedPrintfmt putch outside (cstr fmt) ap s = some (rest, s') ∧
      (takeArgs hasMagnitude (parse fmt) ap = some rest →
        vprintfmt putch (cstr fmt) ap s = some (rest, s')) := by
  obtain ⟨s', hs'⟩ := runItems_some putch (convertFrom_returns putch outside) hargs s
  refine ⟨s', (guardedPrintfmt_cstr putch outside hnul ap s).trans hs', ?_⟩
  intro hmagnitudes
  obtain ⟨s'', hs''⟩ := runItems_some putch (convert_returns putch) hmagnitudes s
  have hsame := runItems_mono putch (fun ch l ap s r => convert_convertFrom putch outside) hs''
  rw [hs'] at hsame
  rw [vprintfmt, vprintfmtWith_cstr putch _ hnul, hs'', ← hsame]

end Sink

/-- Repeated flags, a bad escape, an error code without a magnitude and an
escape that the NUL cuts off. -/
theorem vprintfmt_walk_cut_off :
    ∃ s', guardedPrintfmt record none (cstr (bytes "%--05q%e%l."))
      [.int 0x80000000#32] [] = some ([], s') := by
  obtain ⟨s', hs', _⟩ := vprintfmt_walk record (show 0 ∉ bytes "%--05q%e%l." by decide)
    (show takeArgs (fun _ => true) (parse (bytes "%--05q%e%l.")) [.int 0x80000000#32] = some []
      from rfl) none []
  exact ⟨s', hs'⟩

/-! ## Formats without conversions -/

/-- No `%` begins a conversion, read from outside or from inside an escape:
behind the flags, none of which is a `*`, comes an unrecognised character or
the end of the string. -/
def noConversion : Bool → List Byte → Bool
  | _, [] => true
  | false, ch :: fmt => noConversion (ch = ascii '%') fmt
  | true, ch :: fmt =>
      if isFlag ch then ch != ascii '*' && noConversion true fmt
      else switchLabel ch = .default && noConversion false fmt

/-- The part of an escape that has been read, from its `%` on. -/
def escapeText : Option (List Byte) → List Byte
  | none => []
  | some text => ascii '%' :: text

theorem label_star {ch : Byte} (h : switchLabel ch = .star) : ch = ascii '*' := by
  revert ch
  decide

theorem star_of_labelFlag {ch : Byte} (h : .star ∈ labelFlag (switchLabel ch)) :
    ch = ascii '*' := by
  cases hcase : switchLabel ch with
  | star => exact label_star hcase
  | _ =>
      rw [hcase] at h
      simp [labelFlag] at h

/-- Only a `*` takes an argument while flags are read. -/
theorem star_not_mem_flagsWith (number : Option (Int × Byte)) {text : List Byte}
    (hstar : ascii '*' ∉ text) : .star ∉ flagsWith number text := by
  induction text generalizing number with
  | nil =>
      cases number with
      | none => simp [flagsWith]
      | some n => simp [flagsWith]
  | cons ch text ih =>
      simp only [List.mem_cons, not_or] at hstar
      have hlabel : .star ∉ labelFlag (switchLabel ch) := fun h =>
        hstar.1 (star_of_labelFlag h).symm
      cases number with
      | none =>
          rw [flagsWith]
          split
          · exact ih _ hstar.2
          · rw [List.mem_append, not_or]
            exact ⟨hlabel, ih _ hstar.2⟩
      | some n =>
          rw [flagsWith]
          split
          · exact ih _ hstar.2
          · rw [List.mem_cons, List.mem_append, not_or, not_or]
            exact ⟨by simp, hlabel, ih _ hstar.2⟩

theorem applyFlags_no_star {flags : List Flag} (hstar : .star ∉ flags) (l : Locals)
    (ap : List Arg) : ∃ l', applyFlags flags l ap = some (l', ap) := by
  induction flags generalizing l with
  | nil => exact ⟨l, rfl⟩
  | cons flag flags ih =>
      simp only [List.mem_cons, not_or] at hstar
      cases flag with
      | star => exact absurd rfl hstar.1
      | minus | zero | dot | hash | long | number n => exact ih hstar.2 _

theorem applyFlags_escape {text : List Byte} (hstar : ascii '*' ∉ escapeText (some text))
    (ap : List Arg) : ∃ l', applyFlags (flagsWith none text) Locals.reset ap = some (l', ap) := by
  apply applyFlags_no_star
  apply star_not_mem_flagsWith
  intro hmem
  exact hstar (List.mem_cons_of_mem _ hmem)

section Verbatim

variable {σ : Type} (putch : Word → σ → σ)
variable (conv : Byte → Locals → List Arg → σ → Option (List Arg × σ))

/-- Such a string is printed as it stands, together with what has been read of
an escape before it. -/
theorem runItems_noConversion (mode : Option (List Byte)) {fmt : List Byte}
    (h : noConversion mode.isSome fmt = true) (hstar : ascii '*' ∉ escapeText mode)
    (ap : List Arg) (s : σ) :
    runItems putch conv (parseWith mode fmt) ap s =
      some (ap, feed putch ((escapeText mode ++ fmt).map ofUChar) s) := by
  induction fmt generalizing mode s with
  | nil =>
      cases mode with
      | none => rfl
      | some text =>
          obtain ⟨l', hl'⟩ := applyFlags_escape hstar ap
          rw [parseWith, runItems, hl']
          simp [runItems, escapeText]
  | cons ch fmt ih =>
      cases mode with
      | none =>
          simp only [Option.isSome_none, noConversion] at h
          rw [parseWith]
          split
          · rename_i hch
            subst hch
            exact ih (some []) (by simpa using h) (by decide) s
          · rename_i hch
            exact ih none (by simpa [hch] using h) hstar (putch (ofUChar ch) s)
      | some text =>
          simp only [Option.isSome_some, noConversion] at h
          rw [parseWith]
          split
          · rename_i hflag
            rw [if_pos hflag, Bool.and_eq_true, bne_iff_ne] at h
            have hmore : ascii '*' ∉ escapeText (some (text ++ [ch])) := by
              intro hmem
              rcases List.mem_append.mp (show ascii '*' ∈ escapeText (some text) ++ [ch] from hmem)
                with hseen | hlast
              · exact hstar hseen
              · exact h.1 (List.mem_singleton.mp hlast).symm
            have hrest := ih (some (text ++ [ch])) h.2 hmore s
            simpa [escapeText] using hrest
          · rename_i hflag
            rw [if_neg hflag, Bool.and_eq_true, decide_eq_true_eq] at h
            obtain ⟨l', hl'⟩ := applyFlags_escape hstar ap
            have hrest := ih none h.2 (by decide)
              (feed putch ((escapeText (some text) ++ [ch]).map ofUChar) s)
            rw [if_pos h.1, runItems, hl']
            simpa [escapeText] using hrest

/-- A format without conversions is printed character for character, whatever
the arguments. -/
theorem vprintfmt_noConversion {fmt : List Byte} (hnul : 0 ∉ fmt)
    (h : noConversion false fmt = true) (ap : List Arg) (s : σ) :
    vprintfmt putch (cstr fmt) ap s = some (ap, feed putch (fmt.map ofUChar) s) := by
  rw [vprintfmt, vprintfmtWith_cstr putch _ hnul]
  exact runItems_noConversion putch _ none h (by decide) ap s

end Verbatim

/-- Escapes that print themselves, the last one cut off. -/
theorem vprintfmt_noConversion_cut_off :
    vprintfmt record (cstr (bytes "100% sure %-05.l#k %09")) [] [] =
      some ([], (bytes "100% sure %-05.l#k %09").map ofUChar) := by
  have hwalk := vprintfmt_noConversion record
    (show 0 ∉ bytes "100% sure %-05.l#k %09" by decide)
    (show noConversion false (bytes "100% sure %-05.l#k %09") = true by decide) [] []
  rw [feed_record] at hwalk
  exact hwalk

end JOSKernel.Lib.Printfmt
