import JOSKernel.Lib.FormatItems

/-!
# Concatenated formats

When every escape of a format is completed inside it, the items of a longer
format are those of its two parts.  Each item takes its arguments from the
front of the list and leaves the others alone, so formatting the whole is
formatting the parts one after the other.
-/

namespace JOSKernel.Lib.Printfmt

open JOSKernel.General.MachineInt
open JOSKernel.Lib.StringRoutines

/-! ## Completed escapes -/

/-- Whether a string, read from outside or from inside an escape, ends outside
one.  An escape is completed by its first character that is no flag. -/
def endsOutside : Bool → List Byte → Bool
  | inside, [] => !inside
  | false, ch :: fmt => endsOutside (ch = ascii '%') fmt
  | true, ch :: fmt => endsOutside (isFlag ch) fmt

/-- Every `%` escape of the format is completed inside it. -/
def Complete (fmt : List Byte) : Prop := endsOutside false fmt = true

instance (fmt : List Byte) : Decidable (Complete fmt) :=
  inferInstanceAs (Decidable (endsOutside false fmt = true))

theorem parseWith_append (mode : Option (List Byte)) (fmt rest : List Byte)
    (hends : endsOutside mode.isSome fmt = true) :
    parseWith mode (fmt ++ rest) = parseWith mode fmt ++ parse rest := by
  induction fmt generalizing mode with
  | nil =>
      cases mode with
      | none => rfl
      | some text => cases hends
  | cons ch fmt ih =>
      cases mode with
      | none =>
          simp only [Option.isSome_none, endsOutside] at hends
          by_cases hch : ch = ascii '%'
          · subst hch
            have hrest := ih (some []) (by simpa using hends)
            simpa [parseWith] using hrest
          · have hrest := ih none (by simpa [hch] using hends)
            simp [parseWith, hch, hrest]
      | some text =>
          simp only [Option.isSome_some, endsOutside] at hends
          cases hflag : isFlag ch with
          | true =>
              have hrest := ih (some (text ++ [ch])) (by simpa [hflag] using hends)
              simpa [parseWith, hflag] using hrest
          | false =>
              have hrest := ih none (by simpa [hflag] using hends)
              by_cases hdefault : switchLabel ch = .default
              · simp [parseWith, hflag, hdefault, hrest]
              · simp [parseWith, hflag, hdefault, hrest]

theorem parse_append {fmt : List Byte} (hcomplete : Complete fmt) (rest : List Byte) :
    parse (fmt ++ rest) = parse fmt ++ parse rest :=
  parseWith_append none fmt rest hcomplete

/-! ## Arguments are taken from the front -/

section Frame

variable {β γ : Type} (extra : List Arg)

/-- A reader that takes its arguments from the front, followed by code that
does so too. -/
theorem bind_extra {x y : Option (β × List Arg)}
    {k : β × List Arg → Option (List Arg × γ)}
    (hread : ∀ b rest, x = some (b, rest) → y = some (b, rest ++ extra))
    (hrun : ∀ b rest left c, k (b, rest) = some (left, c) →
      k (b, rest ++ extra) = some (left ++ extra, c))
    {left : List Arg} {c : γ} (h : x >>= k = some (left, c)) :
    y >>= k = some (left ++ extra, c) := by
  obtain ⟨⟨b, rest⟩, hx, hk⟩ := Option.bind_eq_some_iff.mp h
  rw [hread b rest hx]
  exact hrun b rest left c hk

theorem vaWord_extra {ap rest : List Arg} {v : Word} (h : vaWord ap = some (v, rest)) :
    vaWord (ap ++ extra) = some (v, rest ++ extra) := by
  cases ap with
  | nil => cases h
  | cons arg ap => cases arg <;> simp_all [vaWord]

theorem vaLlong_extra {ap rest : List Arg} {v : BitVec 64} (h : vaLlong ap = some (v, rest)) :
    vaLlong (ap ++ extra) = some (v, rest ++ extra) := by
  cases ap with
  | nil => cases h
  | cons arg ap => cases arg <;> simp_all [vaLlong]

theorem vaPtr_extra {ap rest : List Arg} {p : Word} {str : List Byte}
    (h : vaPtr ap = some (p, str, rest)) :
    vaPtr (ap ++ extra) = some (p, str, rest ++ extra) := by
  cases ap with
  | nil => cases h
  | cons arg ap => cases arg <;> simp_all [vaPtr]

/-- An argument of either length, a single word widened by `widen`. -/
theorem fetch_extra (widen : Word → BitVec 64) {ap rest : List Arg} {lflag : Int} {v : BitVec 64}
    (h : (if lflag ≥ 2 then vaLlong ap else (vaWord ap).bind fun r => some (widen r.1, r.2)) =
      some (v, rest)) :
    (if lflag ≥ 2 then vaLlong (ap ++ extra)
      else (vaWord (ap ++ extra)).bind fun r => some (widen r.1, r.2)) =
        some (v, rest ++ extra) := by
  split at h
  · rename_i hlong
    rw [if_pos hlong]
    exact vaLlong_extra extra h
  · rename_i hshort
    rw [if_neg hshort]
    obtain ⟨⟨w, left⟩, hw, heq⟩ := Option.bind_eq_some_iff.mp h
    rw [vaWord_extra extra hw]
    cases heq
    rfl

theorem getuint_extra {ap rest : List Arg} {lflag : Int} {v : BitVec 64}
    (h : getuint ap lflag = some (v, rest)) :
    getuint (ap ++ extra) lflag = some (v, rest ++ extra) :=
  fetch_extra extra (BitVec.setWidth 64) h

theorem getint_extra {ap rest : List Arg} {lflag : Int} {v : BitVec 64}
    (h : getint ap lflag = some (v, rest)) :
    getint (ap ++ extra) lflag = some (v, rest ++ extra) :=
  fetch_extra extra (BitVec.signExtend 64) h

theorem convert_extra {printfmt : List Byte → List Arg → List Word → Option (List Word)}
    (ch : Byte) (l : Locals) {ap left : List Arg} {out out' : List Word}
    (h : convert record printfmt ch l ap out = some (left, out')) :
    convert record printfmt ch l (ap ++ extra) out = some (left ++ extra, out') := by
  unfold convert at h ⊢
  cases hcase : switchLabel ch with
  | char =>
      simp only [hcase] at h ⊢
      refine bind_extra extra (fun _ _ => vaWord_extra extra) ?_ h
      rintro v rest left c heq
      cases heq
      rfl
  | error =>
      simp only [hcase] at h ⊢
      refine bind_extra extra (fun _ _ => vaWord_extra extra) ?_ h
      rintro v rest left c heq
      obtain ⟨s, hs, heq⟩ := Option.bind_eq_some_iff.mp heq
      cases heq
      simp [hs]
  | string =>
      simp only [hcase] at h ⊢
      obtain ⟨⟨p, str, rest⟩, hva, heq⟩ := Option.bind_eq_some_iff.mp h
      obtain ⟨s, hs, heq⟩ := Option.bind_eq_some_iff.mp heq
      cases heq
      simp only [vaPtr_extra extra hva, Option.bind_eq_bind, Option.bind_some]
      dsimp only at hs
      rw [hs]
      rfl
  | decimal =>
      simp only [hcase] at h ⊢
      refine bind_extra extra (fun _ _ => getint_extra extra) ?_ h
      rintro v rest left c heq
      dsimp only at heq ⊢
      split at heq
      · rename_i hneg
        rw [if_pos hneg]
        cases heq
        rfl
      · rename_i hneg
        rw [if_neg hneg]
        cases heq
        rfl
  | unsigned | octal | hex =>
      simp only [hcase] at h ⊢
      refine bind_extra extra (fun _ _ => getuint_extra extra) ?_ h
      rintro v rest left c heq
      cases heq
      rfl
  | pointer =>
      simp only [hcase] at h ⊢
      refine bind_extra extra (fun _ _ => vaWord_extra extra) ?_ h
      rintro v rest left c heq
      cases heq
      rfl
  | percent =>
      simp only [hcase] at h ⊢
      cases h
      rfl
  | _ => simp [hcase] at h

theorem applyFlags_extra (flags : List Flag) {l l' : Locals} {ap rest : List Arg}
    (h : applyFlags flags l ap = some (l', rest)) :
    applyFlags flags l (ap ++ extra) = some (l', rest ++ extra) := by
  induction flags generalizing l ap with
  | nil =>
      cases h
      rfl
  | cons flag flags ih =>
      rw [applyFlags] at h ⊢
      obtain ⟨⟨l₁, ap₁⟩, hflag, hrest⟩ := Option.bind_eq_some_iff.mp h
      have hflag' : flag.apply l (ap ++ extra) = some (l₁, ap₁ ++ extra) := by
        cases flag with
        | star =>
            obtain ⟨⟨v, ap₂⟩, hva, heq⟩ := Option.bind_eq_some_iff.mp hflag
            cases heq
            rw [Flag.apply, vaWord_extra extra hva]
            rfl
        | _ =>
            cases hflag
            rfl
      rw [hflag']
      exact ih hrest

theorem eval_extra {printfmt : List Byte → List Arg → List Word → Option (List Word)}
    (items : List Item) {ap left : List Arg} {out : List Word}
    (h : eval printfmt items ap = some (left, out)) :
    eval printfmt items (ap ++ extra) = some (left ++ extra, out) := by
  induction items generalizing ap out with
  | nil =>
      cases h
      rfl
  | cons item items ih =>
      cases item with
      | literal ch =>
          rw [eval_literal] at h ⊢
          obtain ⟨⟨left', rest⟩, hrest, heq⟩ := Option.map_eq_some_iff.mp h
          cases heq
          rw [ih hrest]
          rfl
      | directive flags ch =>
          rw [eval_directive] at h ⊢
          obtain ⟨⟨l, ap₁⟩, hflags, h⟩ := Option.bind_eq_some_iff.mp h
          obtain ⟨⟨ap₂, text⟩, hconv, h⟩ := Option.bind_eq_some_iff.mp h
          obtain ⟨⟨left', rest⟩, hrest, heq⟩ := Option.map_eq_some_iff.mp h
          cases heq
          simp only [applyFlags_extra extra flags hflags, Option.bind_some,
            convert_extra extra ch l hconv, ih hrest, Option.map_some]
      | verbatim flags text =>
          rw [eval_verbatim] at h ⊢
          obtain ⟨⟨l, ap₁⟩, hflags, h⟩ := Option.bind_eq_some_iff.mp h
          obtain ⟨⟨left', rest⟩, hrest, heq⟩ := Option.map_eq_some_iff.mp h
          cases heq
          simp only [applyFlags_extra extra flags hflags, Option.bind_some, ih hrest,
            Option.map_some]

end Frame

/-- Items are evaluated from left to right, each on what the ones before it
left of the arguments. -/
theorem eval_append (printfmt : List Byte → List Arg → List Word → Option (List Word))
    (items rest : List Item) (ap : List Arg) :
    eval printfmt (items ++ rest) ap =
      (eval printfmt items ap).bind (fun r =>
        (eval printfmt rest r.1).map (fun r' => (r'.1, r.2 ++ r'.2))) := by
  induction items generalizing ap with
  | nil => simp
  | cons item items ih =>
      rw [List.cons_append, eval, eval]
      simp only [ih, Option.bind_eq_bind, Option.bind_assoc]
      cases evalItem printfmt item ap with
      | none => rfl
      | some r =>
          simp only [Option.bind_some, Option.pure_def]
          cases eval printfmt items r.1 with
          | none => rfl
          | some r' =>
              simp only [Option.bind_some]
              cases eval printfmt rest r'.1 <;> simp

/-! ## Formatting in two parts -/

/-- Formatting is a homomorphism: a format in which every escape is completed,
on exactly its own arguments, followed by any other format and arguments. -/
theorem vprintfmt_append (f₁ f₂ : List Byte) (a₁ a₂ : List Arg) (out : List Word)
    (hnul₁ : 0 ∉ f₁) (hnul₂ : 0 ∉ f₂) (hcomplete : Complete f₁)
    (hconsumed : stream (cstr f₁) a₁ = some ([], out)) :
    stream (cstr (f₁ ++ f₂)) (a₁ ++ a₂) =
        (stream (cstr f₂) a₂).map (fun r => (r.1, out ++ r.2)) ∧
      ∀ (σ : Type) (putch : Word → σ → σ) (s : σ),
        vprintfmt putch (cstr (f₁ ++ f₂)) (a₁ ++ a₂) s =
          (vprintfmt putch (cstr f₁) a₁ s).bind
            (fun r => vprintfmt putch (cstr f₂) a₂ r.2) := by
  have hnul : 0 ∉ f₁ ++ f₂ := fun hmem => (List.mem_append.mp hmem).elim hnul₁ hnul₂
  have hstream : stream (cstr (f₁ ++ f₂)) (a₁ ++ a₂) =
      (stream (cstr f₂) a₂).map (fun r => (r.1, out ++ r.2)) := by
    rw [stream_cstr hnul₁] at hconsumed
    rw [stream_cstr hnul, stream_cstr hnul₂, parse_append hcomplete, eval_append,
      eval_extra a₂ _ hconsumed]
    rfl
  refine ⟨hstream, ?_⟩
  intro σ putch s
  rw [vprintfmt_eq_feed, vprintfmt_eq_feed, hstream, hconsumed]
  simp only [Option.map_some, Option.bind_some, Option.map_map]
  rw [vprintfmt_eq_feed]
  congr 1
  funext r
  simp

theorem vprintfmt_append_star :
    stream (cstr (bytes "n=%*c" ++ bytes "%5z")) ([.int 3, .int 65] ++ []) =
        (stream (cstr (bytes "%5z")) []).map
          (fun r => (r.1, [110, 61, 65] ++ r.2)) ∧
      ∀ (σ : Type) (putch : Word → σ → σ) (s : σ),
        vprintfmt putch (cstr (bytes "n=%*c" ++ bytes "%5z")) ([.int 3, .int 65] ++ []) s =
          (vprintfmt putch (cstr (bytes "n=%*c")) [.int 3, .int 65] s).bind
            (fun r => vprintfmt putch (cstr (bytes "%5z")) [] r.2) :=
  vprintfmt_append (bytes "n=%*c") (bytes "%5z") [.int 3, .int 65] [] [110, 61, 65]
    (by decide) (by decide) (by decide) (by decide)

end JOSKernel.Lib.Printfmt
