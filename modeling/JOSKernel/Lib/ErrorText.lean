import JOSKernel.Lib.FormatText

/-!
# The texts of error codes

`%e` takes an error code of either sign.  A magnitude with a message prints the
message and any other magnitude prints as a number, except that the least `int`
has no magnitude: negating it leaves it negative, and the upper bound that
guards `error_string` lets it through.
-/

namespace JOSKernel.Lib.ErrorText

open JOSKernel.General.MachineInt
open JOSKernel.Lib.FormatText
open JOSKernel.Lib.NumberText
open JOSKernel.Lib.Printfmt
open JOSKernel.Lib.StringRoutines

/-! ## Messages -/

/-- The message of an error magnitude. -/
def errorMessage (n : Nat) : List Byte :=
  match errorTable[n]? with
  | some (some p) => bytes p
  | _ => bytes "error " ++ numeralText decimal n

/-- The magnitude that case `'e'` computes, in an `int`. -/
def errorMagnitude (err : Int) : Int := if err < 0 then int32 (-err) else err

/-- The index at which case `'e'` reads `error_string`, if it does. -/
def errorIndex (err : Int) : Option Int :=
  if errorMagnitude err ≥ MAXERROR then none else some (errorMagnitude err)

theorem errorMagnitude_eq {err : Int} (hlow : -2147483648 < err) (hhigh : err < 2147483648) :
    errorMagnitude err = err.natAbs := by
  rw [errorMagnitude]
  split
  · rw [int32_of_range (by omega) (by omega)]
    omega
  · omega

theorem errorTable_plain :
    errorTable.all (fun entry => entry.all fun p => (bytes p).all (· != 0)) = true := by decide

/-! ## The nested calls -/

section Nested

variable {σ : Type} (putch : Word → σ → σ)

/-- A nested call feeds the text of its format to the sink. -/
theorem printfmt_prints {fmt : List Byte} (hfmt : cstr fmt ∈ errorFormats) {args : List Arg}
    {text : List Byte} (h : Prints fmt args text) (s : σ) :
    printfmt putch (cstr fmt) args s = some (feed putch (text.map ofChar) s) := by
  have hnested : printfmt putch (cstr fmt) args s =
      (vprintfmt putch (cstr fmt) args s).map Prod.snd :=
    congrArg (Option.map Prod.snd) (errorFormats_closed putch _ _ hfmt args s)
  rw [hnested, vprintfmt_eq_feed, h.stream_eq]
  rfl

/-- The fallback text. -/
theorem printfmt_unknown {n : Nat} (hn : n < 2147483648) (s : σ) :
    printfmt putch (cstr (bytes "error %d")) [.int (BitVec.ofInt 32 n)] s =
      some (feed putch ((bytes "error " ++ numeralText decimal n).map ofChar) s) := by
  have hvalue : (BitVec.ofInt 32 (n : Int)).toInt = n := by
    rw [toInt_ofInt_word, int32_of_range (by omega) (by omega)]
  have hprints := (Prints.plain (show (bytes "error ").all isPlain = true by decide)).append
    (Prints.signed (BitVec.ofInt 32 n))
  rw [hvalue, signedText, if_neg (by omega), Int.natAbs_natCast] at hprints
  exact printfmt_prints putch List.mem_cons_self hprints s

/-- The message of a table entry. -/
theorem printfmt_message {p : String} (hp : some p ∈ errorTable) (s : σ) :
    printfmt putch (cstr (bytes "%s")) [literal p] s =
      some (feed putch ((bytes p).map ofChar) s) := by
  have hall := List.all_eq_true.mp errorTable_plain _ hp
  have hnul : 0 ∉ bytes p := fun hmem => by simpa using List.all_eq_true.mp hall 0 hmem
  have hlength : (bytes p).length < 2147483648 := by
    have hshort : errorTable.all (fun entry => entry.all fun p => (bytes p).length < 100) = true := by
      decide
    have := List.all_eq_true.mp hshort _ hp
    simp only [Option.all_some, decide_eq_true_eq] at this
    omega
  exact printfmt_prints putch (List.mem_cons_of_mem _ List.mem_cons_self)
    (Prints.string (by decide) hnul hlength []) s

end Nested

/-! ## Both signs of a code -/

/-- Case `'e'` in terms of the index it reads. -/
theorem putError_eq {σ : Type} (printfmt : List Byte → List Arg → σ → Option σ) (err : Int)
    (s : σ) :
    putError printfmt err s =
      match errorIndex err with
      | none =>
          printfmt (cstr (bytes "error %d")) [.int (BitVec.ofInt 32 (errorMagnitude err))] s
      | some i =>
          (errorString i).bind fun entry =>
            match entry with
            | none =>
                printfmt (cstr (bytes "error %d")) [.int (BitVec.ofInt 32 (errorMagnitude err))] s
            | some p => printfmt (cstr (bytes "%s")) [literal p] s := by
  rw [putError, errorIndex]
  change (if errorMagnitude err ≥ MAXERROR then _ else _) = _
  split
  · rfl
  · rfl

theorem putError_text {σ : Type} (putch : Word → σ → σ) {err : Int}
    (hlow : -2147483648 < err) (hhigh : err < 2147483648) (s : σ) :
    putError (printfmt putch) err s =
      some (feed putch ((errorMessage err.natAbs).map ofChar) s) := by
  have hunknown := printfmt_unknown putch (n := err.natAbs) (by omega) s
  rw [putError_eq, errorIndex, errorMagnitude_eq hlow hhigh]
  by_cases hover : (err.natAbs : Int) ≥ MAXERROR
  · have hentry : errorTable[err.natAbs]? = none := by
      rw [List.getElem?_eq_none_iff]
      rw [MAXERROR] at hover
      change 8 ≤ err.natAbs
      omega
    rw [if_pos hover, errorMessage, hentry]
    exact hunknown
  · have hread : errorString err.natAbs = errorTable[err.natAbs]? := by
      rw [errorString, if_pos (by omega), Int.toNat_natCast]
    have hlength : err.natAbs < errorTable.length := by
      rw [MAXERROR] at hover
      change err.natAbs < 8
      omega
    rw [if_neg hover, errorMessage]
    dsimp only
    rw [hread, List.getElem?_eq_getElem hlength, Option.bind_some]
    cases hentry : errorTable[err.natAbs] with
    | none => exact hunknown
    | some p => exact printfmt_message putch (hentry ▸ List.getElem_mem hlength) s

/-- Case `'e'` on `err`, under any flags and into any sink, reads
`error_string` only inside the table and prints `text`. -/
structure PrintsError (err : Word) (text : List Byte) : Prop where
  inside : ∀ i, errorIndex err.toInt = some i → 0 ≤ i ∧ i < MAXERROR
  prints : ∀ {σ : Type} (putch : Word → σ → σ) (l : Locals) (ap : List Arg) (s : σ),
    convert putch (printfmt putch) (ascii 'e') l (.int err :: ap) s =
      some (ap, feed putch (text.map ofChar) s)

theorem convert_error {σ : Type} (putch : Word → σ → σ) (err : Word) (l : Locals)
    (ap : List Arg) (s : σ) :
    convert putch (printfmt putch) (ascii 'e') l (.int err :: ap) s =
      (putError (printfmt putch) err.toInt s).map fun s => (ap, s) := by
  have hlabel : switchLabel (ascii 'e') = .error := by decide
  rw [convert, hlabel]
  simp only [vaWord, Option.bind_eq_bind, Option.bind_some, Option.pure_def]
  cases putError (printfmt putch) err.toInt s <;> rfl

theorem printsError_of_range {err : Word} (hlow : -2147483648 < err.toInt) :
    PrintsError err (errorMessage err.toInt.natAbs) where
  inside := by
    intro i hindex
    rw [errorIndex, errorMagnitude_eq hlow (toInt_word_range err).2] at hindex
    split at hindex
    · cases hindex
    · cases hindex
      omega
  prints := by
    intro σ putch l ap s
    rw [convert_error, putError_text putch hlow (toInt_word_range err).2]
    rfl

/-- The negation of the least `int` is that `int` again, and it is read as an
index below the table. -/
theorem errorIndex_int_min : errorIndex (0x80000000#32 : Word).toInt = some (-2147483648) := by
  decide

theorem lt_toInt_of_ne {err : Word} (hne : err ≠ 0x80000000#32) : -2147483648 < err.toInt := by
  have hmin : err.toInt ≠ -2147483648 := fun heq => hne (BitVec.toInt_inj.mp heq)
  have := (toInt_word_range err).1
  omega

/-- An error code and its negation print the same message, from inside the
table, exactly when the code has a magnitude. -/
theorem printsError_iff (err : Word) :
    PrintsError err (errorMessage err.toInt.natAbs) ∧
        PrintsError (-err) (errorMessage err.toInt.natAbs) ↔
      err ≠ 0x80000000#32 := by
  constructor
  · rintro ⟨herr, _⟩ rfl
    have := (herr.inside _ errorIndex_int_min).1
    omega
  · intro hne
    have hlow := lt_toInt_of_ne hne
    have hneg : (-err).toInt = -err.toInt := BitVec.toInt_neg_of_ne_intMin hne
    have hhigh := (toInt_word_range err).2
    refine ⟨printsError_of_range hlow, ?_⟩
    have hother : PrintsError (-err) (errorMessage (-err).toInt.natAbs) :=
      printsError_of_range (by omega)
    rwa [hneg, Int.natAbs_neg] at hother

/-- `%e` of the least `int` reads with an index outside the table.  C gives the read
no value; an address of 32 bits wraps around to the table's first entry. -/
theorem convert_error_int_min :
    (∃ i, errorIndex (0x80000000#32 : Word).toInt = some i ∧ ¬ (0 ≤ i ∧ i < MAXERROR)) ∧
      convert record (printfmt record) (ascii 'e') Locals.reset [.int 0x80000000#32] [] = none := by
  refine ⟨⟨-2147483648, by decide, by decide⟩, ?_⟩
  rw [convert_error, putError_eq]
  rfl

end JOSKernel.Lib.ErrorText
