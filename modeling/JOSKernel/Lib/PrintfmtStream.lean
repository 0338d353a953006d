import JOSKernel.General.Lockstep
import JOSKernel.Lib.Printfmt

/-!
# The output stream of the formatter

The formatter touches its sink only through `putch`.  Two sinks that start in
related states and keep the relation over every character are therefore still
related when the formatter returns, and any sink ends where feeding it the
recorded stream of `putch` calls ends.
-/

namespace JOSKernel.Lib.Printfmt

open JOSKernel.General.MachineInt
open JOSKernel.General.ByteCursor
open JOSKernel.General.Lockstep
open JOSKernel.Lib.StringRoutines

/-! ## Sinks in lock step -/

section Lockstep

variable {σ τ : Type} {R : σ → τ → Prop}
variable {putch : Word → σ → σ} {putch' : Word → τ → τ}
variable {printfmt : List Byte → List Arg → σ → Option σ}
variable {printfmt' : List Byte → List Arg → τ → Option τ}

theorem putMany_lockstep
    (hputch : ∀ ch s t, R s t → R (putch ch s) (putch' ch t))
    (ch : Word) (count : Nat) {s : σ} {t : τ} (h : R s t) :
    R (putMany putch ch count s) (putMany putch' ch count t) := by
  induction count generalizing s t with
  | zero => exact h
  | succ count ih => exact ih (hputch ch s t h)

theorem printnum_lockstep
    (hputch : ∀ ch s t, R s t → R (putch ch s) (putch' ch t))
    (num : Nat) (base : Base) (width : Int) (padc : Word) {s : σ} {t : τ} (h : R s t) :
    R (printnum putch num base width padc s) (printnum putch' num base width padc t) := by
  induction num using Nat.strongRecOn generalizing width with
  | ind num ih =>
      unfold printnum
      have hbase := base.two_le
      split
      · exact hputch _ _ _ (ih _ (Nat.div_lt_self (by omega) (by omega)) _)
      · exact hputch _ _ _ (putMany_lockstep hputch _ _ h)

theorem copyLoop_lockstep
    (hputch : ∀ ch s t, R s t → R (putch ch s) (putch' ch t))
    (altflag : Bool) (p : List Byte) (width precision : Int) {s : σ} {t : τ} (h : R s t) :
    Option.Rel (fun x y => x.1 = y.1 ∧ R x.2 y.2)
      (copyLoop putch altflag p width precision s)
      (copyLoop putch' altflag p width precision t) := by
  induction p generalizing width precision s t with
  | nil => exact Option.Rel.none
  | cons ch p ih =>
      unfold copyLoop
      split
      · exact Option.Rel.some ⟨rfl, h⟩
      · split
        · exact ih _ _ (hputch _ _ _ h)
        · exact Option.Rel.some ⟨rfl, h⟩

theorem padString_lockstep
    (hputch : ∀ ch s t, R s t → R (putch ch s) (putch' ch t))
    (l : Locals) (p : List Byte) {s : σ} {t : τ} (h : R s t) :
    Option.Rel (fun x y => x.1 = y.1 ∧ R x.2 y.2)
      (padString putch l p s) (padString putch' l p t) := by
  unfold padString
  split
  · exact bind_same _ fun n => Option.Rel.some ⟨rfl, putMany_lockstep hputch _ _ h⟩
  · exact Option.Rel.some ⟨rfl, h⟩

theorem putString_lockstep
    (hputch : ∀ ch s t, R s t → R (putch ch s) (putch' ch t))
    (l : Locals) (p : List Byte) {s : σ} {t : τ} (h : R s t) :
    Option.Rel R (putString putch l p s) (putString putch' l p t) := by
  unfold putString
  refine bind_rel (padString_lockstep hputch l p h) ?_
  rintro ⟨width, s⟩ ⟨width', t⟩ ⟨rfl, hst⟩
  refine bind_rel (copyLoop_lockstep hputch l.altflag p width l.precision hst) ?_
  rintro ⟨width, s⟩ ⟨width', t⟩ ⟨rfl, hst⟩
  exact Option.Rel.some (putMany_lockstep hputch _ _ hst)

theorem putError_lockstep
    (hprintfmt : ∀ fmt ∈ errorFormats, ∀ ap s t, R s t →
      Option.Rel R (printfmt fmt ap s) (printfmt' fmt ap t))
    (err : Int) {s : σ} {t : τ} (h : R s t) :
    Option.Rel R (putError printfmt err s) (putError printfmt' err t) := by
  unfold putError
  dsimp only
  generalize (if err < 0 then int32 (-err) else err) = err
  have hunknown := hprintfmt _ (List.mem_cons_self (l := [cstr (bytes "%s")]))
  split
  · exact hunknown _ _ _ h
  · refine bind_same _ fun entry => ?_
    cases entry with
    | none => exact hunknown _ _ _ h
    | some p => exact hprintfmt _ (List.mem_cons_of_mem _ List.mem_cons_self) _ _ _ h

/-- What two conversions in lock step agree on: the remaining arguments, and
the relation of their sinks. -/
abbrev SameArgs (R : σ → τ → Prop) (x : List Arg × σ) (y : List Arg × τ) : Prop :=
  x.1 = y.1 ∧ R x.2 y.2

theorem convert_lockstep
    (hputch : ∀ ch s t, R s t → R (putch ch s) (putch' ch t))
    (hprintfmt : ∀ fmt ∈ errorFormats, ∀ ap s t, R s t →
      Option.Rel R (printfmt fmt ap s) (printfmt' fmt ap t))
    (ch : Byte) (l : Locals) (ap : List Arg) {s : σ} {t : τ} (h : R s t) :
    Option.Rel (SameArgs R) (convert putch printfmt ch l ap s)
      (convert putch' printfmt' ch l ap t) := by
  have hnumber (num : BitVec 64) (base : Base) {s : σ} {t : τ} (h : R s t) :
      R (number putch num base l s) (number putch' num base l t) :=
    printnum_lockstep hputch _ _ _ _ h
  unfold convert
  cases switchLabel ch with
  | char => exact bind_same _ fun v => Option.Rel.some ⟨rfl, hputch _ _ _ h⟩
  | error =>
      refine bind_same _ fun v => ?_
      exact bind_rel (putError_lockstep hprintfmt _ h)
        fun s t hst => Option.Rel.some ⟨rfl, hst⟩
  | string =>
      refine bind_same _ fun v => ?_
      exact bind_rel (putString_lockstep hputch _ _ h)
        fun s t hst => Option.Rel.some ⟨rfl, hst⟩
  | decimal =>
      refine bind_same _ ?_
      rintro ⟨num, ap⟩
      dsimp only
      split
      · exact Option.Rel.some ⟨rfl, hnumber _ _ (hputch _ _ _ h)⟩
      · exact Option.Rel.some ⟨rfl, hnumber _ _ h⟩
  | unsigned => exact bind_same _ fun v => Option.Rel.some ⟨rfl, hnumber _ _ h⟩
  | octal => exact bind_same _ fun v => Option.Rel.some ⟨rfl, hnumber _ _ h⟩
  | pointer =>
      exact bind_same _ fun v =>
        Option.Rel.some ⟨rfl, hnumber _ _ (hputch _ _ _ (hputch _ _ _ h))⟩
  | hex => exact bind_same _ fun v => Option.Rel.some ⟨rfl, hnumber _ _ h⟩
  | percent => exact Option.Rel.some ⟨rfl, hputch _ _ _ h⟩
  | _ => exact Option.Rel.none

theorem vprintfmtLoop_lockstep
    (hputch : ∀ ch s t, R s t → R (putch ch s) (putch' ch t))
    (hprintfmt : ∀ fmt ∈ errorFormats, ∀ ap s t, R s t →
      Option.Rel R (printfmt fmt ap s) (printfmt' fmt ap t))
    (fuel : Nat) (fmt : Cursor) (ap : List Arg) {s : σ} {t : τ} (h : R s t) :
    Option.Rel (SameArgs R) (vprintfmtLoop putch printfmt fuel fmt ap s)
      (vprintfmtLoop putch' printfmt' fuel fmt ap t) := by
  induction fuel generalizing fmt ap s t with
  | zero => exact Option.Rel.none
  | succ fuel ih =>
      unfold vprintfmtLoop
      refine bind_same _ fun ⟨ch, fmt⟩ => ?_
      dsimp only
      split
      · refine bind_same _ fun ⟨ch, l, fmt, ap⟩ => ?_
        dsimp only
        split
        · refine bind_same _ fun fmt => ?_
          exact bind_same _ fun fmt => ih _ _ (hputch _ _ _ h)
        · refine bind_rel (convert_lockstep hputch hprintfmt ch l ap h) ?_
          rintro ⟨ap, s⟩ ⟨ap', t⟩ ⟨rfl, hst⟩
          exact ih _ _ hst
      · split
        · exact Option.Rel.some ⟨rfl, h⟩
        · exact ih _ _ (hputch _ _ _ h)

theorem printfmt_lockstep
    (hputch : ∀ ch s t, R s t → R (putch ch s) (putch' ch t))
    (fmt : List Byte) (ap : List Arg) (s : σ) (t : τ) (h : R s t) :
    Option.Rel R (Printfmt.printfmt putch fmt ap s) (Printfmt.printfmt putch' fmt ap t) :=
  map_rel (vprintfmtLoop_lockstep hputch (fun _ _ _ _ _ _ => Option.Rel.none) _ _ _ h)
    fun _ _ hxy => hxy.2

/-- Two sinks that every character keeps related are related after formatting,
and both calls consume the same arguments. -/
theorem vprintfmt_lockstep
    (hputch : ∀ ch s t, R s t → R (putch ch s) (putch' ch t))
    (fmt : List Byte) (ap : List Arg) {s : σ} {t : τ} (h : R s t) :
    Option.Rel (SameArgs R) (vprintfmt putch fmt ap s) (vprintfmt putch' fmt ap t) :=
  vprintfmtLoop_lockstep hputch (fun fmt _ => printfmt_lockstep hputch fmt) _ _ _ h

end Lockstep

/-! ## The recorded stream -/

/-- The sink that records its calls. -/
def record (ch : Word) (out : List Word) : List Word := out ++ [ch]

/-- Make a sequence of `putch` calls. -/
def feed {σ : Type} (putch : Word → σ → σ) (out : List Word) (s : σ) : σ :=
  out.foldl (fun s ch => putch ch s) s

/-- The `putch` calls of `vprintfmt`, with the arguments left over. -/
def stream (fmt : List Byte) (ap : List Arg) : Option (List Arg × List Word) :=
  vprintfmt record fmt ap []

section Feed

variable {σ : Type} (putch : Word → σ → σ)

@[simp]
theorem feed_nil (s : σ) : feed putch [] s = s := rfl

@[simp]
theorem feed_cons (ch : Word) (out : List Word) (s : σ) :
    feed putch (ch :: out) s = feed putch out (putch ch s) := rfl

@[simp]
theorem feed_append (out rest : List Word) (s : σ) :
    feed putch (out ++ rest) s = feed putch rest (feed putch out s) := by
  simp [feed]

theorem feed_record (out rest : List Word) : feed record out rest = rest ++ out := by
  induction out generalizing rest with
  | nil => simp
  | cons ch out ih => simp [ih, record]

/-- A sink whose state is a function of what it has been fed follows the
recording sink. -/
theorem feed_follows (s : σ) (ch : Word) (s' : σ) (out : List Word)
    (h : s' = feed putch out s) : putch ch s' = feed putch (record ch out) s := by
  simp [h, record]

/-- Formatting into a sink is feeding it the stream. -/
theorem vprintfmt_eq_feed (fmt : List Byte) (ap : List Arg) (s : σ) :
    vprintfmt putch fmt ap s =
      (stream fmt ap).map (fun r => (r.1, feed putch r.2 s)) := by
  apply eq_map_of_rel
  have hrel := vprintfmt_lockstep (R := fun s' out => s' = feed putch out s)
    (fun ch s' out h => feed_follows putch s ch s' out h) fmt ap (feed_nil putch s).symm
  exact rel_mono hrel fun x y h => Prod.ext h.1 h.2

end Feed

end JOSKernel.Lib.Printfmt
