import JOSKernel.Lib.PrintfmtStream

/-!
# Format strings as lists of items

A format string denotes a list of items: literal characters, completed
directives, and escapes that are printed back verbatim.  Splitting a string
into items does not look at the arguments, and each item turns a prefix of the
arguments into text.  The pointer-driven loop of `vprintfmt` computes exactly
this denotation, so properties of concatenated formats are properties of
concatenated item lists.
-/

namespace JOSKernel.Lib.Printfmt

open JOSKernel.General.MachineInt
open JOSKernel.General.ByteCursor
open JOSKernel.General.Lockstep
open JOSKernel.Lib.StringRoutines

/-! ## Items and their texts -/

/-- What one flag, width, precision or length part of an escape does. -/
inductive Flag where
  | minus | zero | star | dot | hash | long
  | number (n : Int)

def Flag.apply : Flag → Locals → List Arg → Option (Locals × List Arg)
  | .minus, l, ap => some ({ l with padc := ascii '-' }, ap)
  | .zero, l, ap => some ({ l with padc := ascii '0' }, ap)
  | .number n, l, ap => some ({ l with precision := n }.processPrecision, ap)
  | .star, l, ap => do
      let (v, ap) ← vaWord ap
      return ({ l with precision := v.toInt }.processPrecision, ap)
  | .dot, l, ap => some ({ l with width := if l.width < 0 then 0 else l.width }, ap)
  | .hash, l, ap => some ({ l with altflag := true }, ap)
  | .long, l, ap => some ({ l with lflag := int32 (l.lflag + 1) }, ap)

def applyFlags : List Flag → Locals → List Arg → Option (Locals × List Arg)
  | [], l, ap => some (l, ap)
  | flag :: flags, l, ap => do
      let (l, ap) ← flag.apply l ap
      applyFlags flags l ap

inductive Item where
  | literal (ch : Byte)
  | directive (flags : List Flag) (ch : Byte)
  | verbatim (flags : List Flag) (text : List Byte)

/-- The characters an escape may contain before the one that ends it. -/
def isFlag (ch : Byte) : Bool :=
  match switchLabel ch with
  | .minus | .zero | .digit | .star | .dot | .hash | .long => true
  | _ => false

def labelFlag : Label → List Flag
  | .minus => [.minus]
  | .zero => [.zero]
  | .star => [.star]
  | .dot => [.dot]
  | .hash => [.hash]
  | .long => [.long]
  | _ => []

/-- The flags a flag text stands for; a number starts with a digit other than
`0` and then takes every digit that follows.  `some` is the inside of one. -/
def flagsWith : Option (Int × Byte) → List Byte → List Flag
  | none, [] => []
  | some (precision, ch), [] => [.number (pushDigit precision ch)]
  | none, ch :: text =>
      if switchLabel ch = .digit then flagsWith (some (0, ch)) text
      else labelFlag (switchLabel ch) ++ flagsWith none text
  | some (precision, ch), next :: text =>
      if isDigit next then flagsWith (some (pushDigit precision ch, next)) text
      else .number (pushDigit precision ch) ::
        (labelFlag (switchLabel next) ++ flagsWith none text)

/-- Split a format string into items, from outside an escape or from inside
one whose flag text so far is given. -/
def parseWith : Option (List Byte) → List Byte → List Item
  | none, [] => []
  | some text, [] => [.verbatim (flagsWith none text) text]
  | none, ch :: fmt =>
      if ch = ascii '%' then parseWith (some []) fmt
      else .literal ch :: parseWith none fmt
  | some text, ch :: fmt =>
      if isFlag ch then parseWith (some (text ++ [ch])) fmt
      else if switchLabel ch = .default then
        .verbatim (flagsWith none text) (text ++ [ch]) :: parseWith none fmt
      else .directive (flagsWith none text) ch :: parseWith none fmt

def parse (fmt : List Byte) : List Item := parseWith none fmt

/-! ## Steps of the loop -/

theorem isDigit_eq_false {ch : Byte} (hflag : isFlag ch = false) : isDigit ch = false := by
  revert ch
  decide

theorem label_ne_digit {ch : Byte} (hdigit : isDigit ch = false) :
    switchLabel ch ≠ .digit := by
  revert ch
  decide

theorem percent_not_flag : isFlag (ascii '%') = false := by decide

theorem nul_not_flag : isFlag 0 = false := by decide

/-- The digit loop stops in front of the first byte that is no digit, and has
read the number at the head of the flag text. -/
theorem digitLoop_flags (precision : Int) (ch : Byte) (before text : List Byte)
    (hflags : ∀ b ∈ text, isFlag b = true) {stop : Byte} (hstop : isFlag stop = false)
    (after : List Byte) :
    ∃ n digits text', text = digits ++ text' ∧
      digitLoop precision ch before (text ++ stop :: after) =
        some (n, ⟨digits.reverse ++ before, text' ++ stop :: after⟩) ∧
      flagsWith (some (precision, ch)) text = .number n :: flagsWith none text' := by
  induction text generalizing precision ch before with
  | nil =>
      refine ⟨pushDigit precision ch, [], [], rfl, ?_, by simp [flagsWith]⟩
      simp [digitLoop, isDigit_eq_false hstop]
  | cons next text ih =>
      cases hdigit : isDigit next with
      | true =>
          obtain ⟨n, digits, text', hsplit, hloop, hparse⟩ :=
            ih (pushDigit precision ch) next (next :: before)
              (fun b hb => hflags b (List.mem_cons_of_mem _ hb))
          refine ⟨n, next :: digits, text', by rw [hsplit, List.cons_append], ?_, ?_⟩
          · rw [List.cons_append, digitLoop, if_pos hdigit, hloop]
            simp
          · rw [flagsWith, if_pos hdigit, hparse]
      | false =>
          refine ⟨pushDigit precision ch, [], next :: text, rfl, ?_, ?_⟩
          · rw [List.cons_append, digitLoop, if_neg (by rw [hdigit]; decide)]
            rfl
          · have hlabel := label_ne_digit hdigit
            simp [flagsWith, hdigit, hlabel]

/-- The `reswitch` loop reads a whole flag text and stops behind the byte that
ends it. -/
theorem reswitch_flags (fuel : Nat) (l : Locals) (before text : List Byte)
    (hflags : ∀ b ∈ text, isFlag b = true) {stop : Byte} (hstop : isFlag stop = false)
    (after : List Byte) (ap : List Arg) (hfuel : text.length < fuel) :
    reswitch fuel l ⟨before, text ++ stop :: after⟩ ap =
      (applyFlags (flagsWith none text) l ap).map
        (fun r => (stop, r.1, ⟨stop :: (text.reverse ++ before), after⟩, r.2)) := by
  induction fuel generalizing l before text ap with
  | zero => omega
  | succ fuel ih =>
      cases text with
      | nil =>
          have hlabel := hstop
          unfold isFlag at hlabel
          simp only [reswitch, List.nil_append, Cursor.next?_cons, Option.bind_eq_bind,
            Option.bind_some, flagsWith, applyFlags, Option.map_some, List.reverse_nil]
          cases hcase : switchLabel stop <;> simp [hcase] at hlabel ⊢
      | cons ch text =>
          have hch := hflags ch List.mem_cons_self
          have htext : ∀ b ∈ text, isFlag b = true :=
            fun b hb => hflags b (List.mem_cons_of_mem _ hb)
          have hlen : text.length < fuel := by simpa using hfuel
          have hrest (l : Locals) (ap : List Arg) :=
            ih l (ch :: before) text htext ap hlen
          unfold isFlag at hch
          cases hcase : switchLabel ch with
          | digit =>
              obtain ⟨n, digits, text', hsplit, hloop, hparse⟩ :=
                digitLoop_flags 0 ch (ch :: before) text htext hstop after
              have htext' : ∀ b ∈ text', isFlag b = true := fun b hb =>
                htext b (by rw [hsplit]; exact List.mem_append_right _ hb)
              have hlen' : text'.length < fuel := by
                rw [hsplit, List.length_append] at hlen
                omega
              simp only [reswitch, List.cons_append, Cursor.next?_cons, Option.bind_eq_bind,
                Option.bind_some, hcase, hloop, flagsWith, if_true, hparse, applyFlags,
                Flag.apply]
              rw [ih _ _ text' htext' ap hlen', hsplit]
              simp
          | star =>
              simp only [reswitch, List.cons_append, Cursor.next?_cons, Option.bind_eq_bind,
                Option.bind_some, hcase, hrest, flagsWith, reduceCtorEq, if_false, labelFlag,
                List.nil_append, applyFlags, Flag.apply]
              cases vaWord ap <;> simp
          | minus | zero | dot | hash | long =>
              simp only [reswitch, List.cons_append, Cursor.next?_cons, Option.bind_eq_bind,
                Option.bind_some, hcase, hrest, flagsWith, reduceCtorEq, if_false, labelFlag,
                List.nil_append, applyFlags, Flag.apply]
              simp
          | _ => simp [hcase] at hch

/-- Every format string is a flag text, alone or up to the byte that ends it. -/
theorem split_flags (fmt : List Byte) :
    (∀ b ∈ fmt, isFlag b = true) ∨
      ∃ text stop rest, fmt = text ++ stop :: rest ∧
        (∀ b ∈ text, isFlag b = true) ∧ isFlag stop = false := by
  induction fmt with
  | nil => exact Or.inl (by simp)
  | cons ch fmt ih =>
      cases hch : isFlag ch with
      | false => exact Or.inr ⟨[], ch, fmt, rfl, by simp, hch⟩
      | true =>
          rcases ih with hall | ⟨text, stop, rest, hsplit, htext, hstop⟩
          · exact Or.inl (by simpa [hch] using hall)
          · refine Or.inr ⟨ch :: text, stop, rest, by rw [hsplit, List.cons_append], ?_, hstop⟩
            simpa [hch] using htext

/-- The backward scan of a bad escape puts the pointer just behind its `%`. -/
theorem rewind_escape (before text after : List Byte) (stop : Byte)
    (hpercent : ascii '%' ∉ text) :
    (Cursor.back? ⟨stop :: (text.reverse ++ ascii '%' :: before), after⟩ >>= fun fmt =>
      Cursor.seekBack? (ascii '%') fmt.before fmt.after) =
      some ⟨ascii '%' :: before, text ++ stop :: after⟩ := by
  simp only [Cursor.back?_cons, Option.bind_eq_bind, Option.bind_some]
  exact Cursor.seekBack?_append hpercent before (stop :: after)

theorem percent_not_mem {text : List Byte} (hflags : ∀ b ∈ text, isFlag b = true) :
    ascii '%' ∉ text := by
  intro hmem
  have hflag := hflags _ hmem
  rw [percent_not_flag] at hflag
  cases hflag

/-! ## The walk along a format -/

section Walk

variable {σ : Type} (putch : Word → σ → σ)
variable (conv : Byte → Locals → List Arg → σ → Option (List Arg × σ))
variable (keep : List Byte → List Byte)

/-- The main loop with its conversions made by `conv`.  While an escape is
read, only `keep` of the bytes below its `%` can be reached by moving back. -/
def walkLoop : Nat → Cursor → List Arg → σ → Option (List Arg × σ)
  | 0, _, _, _ => none
  | fuel + 1, start, ap, s => do
      let (ch, fmt) ← start.next?
      if ch = ascii '%' then
        let (ch, l, fmt, ap) ← reswitch (fmt.after.length + 1) Locals.reset
          ⟨ascii '%' :: keep start.before, fmt.after⟩ ap
        if switchLabel ch = .default then
          let fmt ← fmt.back?
          let fmt ← Cursor.seekBack? (ascii '%') fmt.before fmt.after
          walkLoop fuel fmt ap (putch (ofUChar (ascii '%')) s)
        else
          let (ap, s) ← conv ch l ap s
          walkLoop fuel fmt ap s
      else if ch = 0 then some (ap, s)
      else walkLoop fuel fmt ap (putch (ofUChar ch) s)

/-- `vprintfmt` walks with its own conversions and every byte within reach. -/
theorem vprintfmtLoop_eq_walkLoop (printfmt : List Byte → List Arg → σ → Option σ)
    (fuel : Nat) (fmt : Cursor) (ap : List Arg) (s : σ) :
    vprintfmtLoop putch printfmt fuel fmt ap s =
      walkLoop putch (convert putch printfmt) id fuel fmt ap s := by
  induction fuel generalizing fmt ap s with
  | zero => rfl
  | succ fuel ih =>
      obtain ⟨before, after⟩ := fmt
      cases after with
      | nil => rfl
      | cons ch after =>
          rw [vprintfmtLoop, walkLoop]
          simp only [Cursor.next?_cons, Option.bind_eq_bind, Option.bind_some, ih, id]
          by_cases hch : ch = ascii '%'
          · subst hch
            rfl
          · rw [if_neg hch, if_neg hch]

/-- At the terminating NUL the loop returns. -/
theorem walkLoop_nul (fuel : Nat) (before after : List Byte) (ap : List Arg) (s : σ) :
    walkLoop putch conv keep (fuel + 1) ⟨before, 0 :: after⟩ ap s = some (ap, s) := by
  rw [walkLoop]
  simp only [Cursor.next?_cons, Option.bind_eq_bind, Option.bind_some, if_true]
  rw [if_neg (by decide)]

/-- Any other character outside an escape is printed. -/
theorem walkLoop_literal (fuel : Nat) (before after : List Byte) (ch : Byte)
    (hnul : ch ≠ 0) (hpercent : ch ≠ ascii '%') (ap : List Arg) (s : σ) :
    walkLoop putch conv keep (fuel + 1) ⟨before, ch :: after⟩ ap s =
      walkLoop putch conv keep fuel ⟨ch :: before, after⟩ ap (putch (ofUChar ch) s) := by
  rw [walkLoop]
  simp only [Cursor.next?_cons, Option.bind_eq_bind, Option.bind_some]
  rw [if_neg hpercent, if_neg hnul]

/-- One bad escape: the `%` is printed, the arguments of its flags are gone,
and the loop goes on with the text behind the `%`. -/
theorem walkLoop_bad (fuel : Nat) (before text after : List Byte) (stop : Byte)
    (ap : List Arg) (s : σ)
    (hflags : ∀ b ∈ text, isFlag b = true) (hstop : isFlag stop = false)
    (hdefault : switchLabel stop = .default) :
    walkLoop putch conv keep (fuel + 1) ⟨before, ascii '%' :: (text ++ stop :: after)⟩ ap s =
      (applyFlags (flagsWith none text) Locals.reset ap).bind (fun r =>
        walkLoop putch conv keep fuel ⟨ascii '%' :: keep before, text ++ stop :: after⟩ r.2
          (putch (ofUChar (ascii '%')) s)) := by
  have hfuel : text.length < (text ++ stop :: after).length + 1 := by
    rw [List.length_append]
    omega
  have hrewind := rewind_escape (keep before) text after stop (percent_not_mem hflags)
  rw [walkLoop]
  simp only [Cursor.next?_cons, Option.bind_eq_bind, Option.bind_some, if_true,
    reswitch_flags _ _ _ text hflags hstop after ap hfuel]
  cases applyFlags (flagsWith none text) Locals.reset ap with
  | none => rfl
  | some r =>
      simp only [Option.map_some, Option.bind_some, hdefault, if_true]
      rw [Option.bind_eq_bind] at hrewind
      rw [← Option.bind_assoc, hrewind]
      rfl

/-- One completed directive. -/
theorem walkLoop_directive (fuel : Nat) (before text after : List Byte) (stop : Byte)
    (ap : List Arg) (s : σ)
    (hflags : ∀ b ∈ text, isFlag b = true) (hstop : isFlag stop = false)
    (hdefault : switchLabel stop ≠ .default) :
    walkLoop putch conv keep (fuel + 1) ⟨before, ascii '%' :: (text ++ stop :: after)⟩ ap s =
      (applyFlags (flagsWith none text) Locals.reset ap).bind (fun r =>
        (conv stop r.1 r.2 s).bind (fun r =>
          walkLoop putch conv keep fuel
            ⟨stop :: (text.reverse ++ ascii '%' :: keep before), after⟩ r.1 r.2)) := by
  have hfuel : text.length < (text ++ stop :: after).length + 1 := by
    rw [List.length_append]
    omega
  rw [walkLoop]
  simp only [Cursor.next?_cons, Option.bind_eq_bind, Option.bind_some, if_true,
    reswitch_flags _ _ _ text hflags hstop after ap hfuel]
  cases applyFlags (flagsWith none text) Locals.reset ap with
  | none => rfl
  | some r => simp only [Option.map_some, Option.bind_some, hdefault, if_false]

/-! ## Items in turn -/

/-- Print the items of a format one after the other. -/
def runItems : List Item → List Arg → σ → Option (List Arg × σ)
  | [], ap, s => some (ap, s)
  | .literal ch :: items, ap, s => runItems items ap (putch (ofUChar ch) s)
  | .directive flags ch :: items, ap, s => do
      let (l, ap) ← applyFlags flags Locals.reset ap
      let (ap, s) ← conv ch l ap s
      runItems items ap s
  | .verbatim flags text :: items, ap, s => do
      let (_, ap) ← applyFlags flags Locals.reset ap
      runItems items ap (feed putch (ofUChar (ascii '%') :: text.map ofUChar) s)

theorem parseWith_flags (seen text fmt : List Byte) (hflags : ∀ b ∈ text, isFlag b = true) :
    parseWith (some seen) (text ++ fmt) = parseWith (some (seen ++ text)) fmt := by
  induction text generalizing seen with
  | nil => simp
  | cons ch text ih =>
      rw [List.cons_append, parseWith, if_pos (hflags ch List.mem_cons_self),
        ih _ (fun b hb => hflags b (List.mem_cons_of_mem _ hb))]
      simp

/-- Text without a `%` is a list of literals. -/
theorem parse_literals (text fmt : List Byte) (hpercent : ascii '%' ∉ text) :
    parse (text ++ fmt) = text.map Item.literal ++ parse fmt := by
  induction text with
  | nil => rfl
  | cons ch text ih =>
      simp only [List.mem_cons, not_or] at hpercent
      have htail := ih hpercent.2
      unfold parse at htail ⊢
      rw [List.cons_append, parseWith, if_neg (Ne.symm hpercent.1), htail]
      rfl

/-- A directive up to its conversion character. -/
theorem parse_directive {text : List Byte} (hflags : ∀ b ∈ text, isFlag b = true) {stop : Byte}
    (hstop : isFlag stop = false) (hdefault : switchLabel stop ≠ .default) (rest : List Byte) :
    parse (ascii '%' :: (text ++ stop :: rest)) =
      .directive (flagsWith none text) stop :: parse rest := by
  rw [parse, parseWith, if_pos rfl, parseWith_flags [] text _ hflags, parseWith, hstop,
    List.nil_append]
  simp [hdefault, parse]

/-- A bad escape up to the character that spoils it. -/
theorem parse_bad {text : List Byte} (hflags : ∀ b ∈ text, isFlag b = true) {stop : Byte}
    (hstop : isFlag stop = false) (hdefault : switchLabel stop = .default) (rest : List Byte) :
    parse (ascii '%' :: (text ++ stop :: rest)) =
      .verbatim (flagsWith none text) (text ++ [stop]) :: parse rest := by
  rw [parse, parseWith, if_pos rfl, parseWith_flags [] text _ hflags, parseWith, hstop,
    List.nil_append]
  simp [hdefault, parse]

/-- An escape that the end of the string cuts off. -/
theorem parse_cut {text : List Byte} (hflags : ∀ b ∈ text, isFlag b = true) :
    parse (ascii '%' :: text) = [.verbatim (flagsWith none text) text] := by
  have hparse := parseWith_flags [] text [] hflags
  rw [List.append_nil, List.nil_append] at hparse
  rw [parse, parseWith, if_pos rfl, hparse, parseWith]

theorem runItems_literals (text : List Byte) (items : List Item) (ap : List Arg) (s : σ) :
    runItems putch conv (text.map Item.literal ++ items) ap s =
      runItems putch conv items ap (feed putch (text.map ofUChar) s) := by
  induction text generalizing s with
  | nil => rfl
  | cons ch text ih => exact ih _

/-- The pointer-driven loop prints the items of the string at the pointer.
The induction is on the fuel, which every byte of the string lowers by at most
one: a bad escape gives back all but its `%`. -/
theorem walkLoop_eq_runItems (fuel : Nat) (before fmt after : List Byte) (hnul : 0 ∉ fmt)
    (ap : List Arg) (s : σ) (hfuel : fmt.length < fuel) :
    walkLoop putch conv keep fuel ⟨before, fmt ++ 0 :: after⟩ ap s =
      runItems putch conv (parse fmt) ap s := by
  induction fuel generalizing before fmt ap s with
  | zero => omega
  | succ fuel ih =>
      -- a bad escape leaves the loop at its own text, read as literals
      have hverbatim (before text rest : List Byte) (hsub : (text ++ rest).length < fuel)
          (hnul : 0 ∉ text ++ rest) (hpercent : ascii '%' ∉ text) (ap : List Arg) :
          walkLoop putch conv keep fuel ⟨before, (text ++ rest) ++ 0 :: after⟩ ap
              (putch (ofUChar (ascii '%')) s) =
            runItems putch conv (parse rest) ap
              (feed putch (ofUChar (ascii '%') :: text.map ofUChar) s) := by
        rw [ih _ _ hnul _ _ hsub, parse_literals text rest hpercent, runItems_literals, feed_cons]
      cases fmt with
      | nil =>
          rw [List.nil_append, walkLoop_nul]
          rfl
      | cons ch fmt =>
          simp only [List.mem_cons, not_or] at hnul
          have hlen : fmt.length < fuel := by simpa using hfuel
          by_cases hch : ch = ascii '%'
          · subst hch
            rcases split_flags fmt with hall | ⟨text, stop, rest, hsplit, htext, hstop⟩
            · -- the string ends inside the escape: its NUL is the bad character
              have hloop (ap : List Arg) := hverbatim (ascii '%' :: keep before) fmt []
                (by simpa using hlen) (by simpa using hnul.2) (percent_not_mem hall) ap
              simp only [List.append_nil] at hloop
              rw [List.cons_append, parse_cut hall,
                walkLoop_bad _ _ _ fuel before fmt after 0 ap s hall nul_not_flag (by decide)]
              simp only [hloop]
              rfl
            · subst hsplit
              rw [List.cons_append, List.append_assoc, List.cons_append]
              by_cases hdefault : switchLabel stop = .default
              · have hpercent : ascii '%' ∉ text ++ [stop] := by
                  have hne : ascii '%' ≠ stop := by
                    rintro rfl
                    revert hdefault
                    decide
                  simp [percent_not_mem htext, hne]
                have hloop (ap : List Arg) := hverbatim (ascii '%' :: keep before) (text ++ [stop])
                  rest (by simpa using hlen) (by simpa using hnul.2) hpercent ap
                simp only [List.append_assoc, List.cons_append, List.nil_append] at hloop
                rw [walkLoop_bad _ _ _ fuel before text (rest ++ 0 :: after) stop ap s htext hstop
                  hdefault, parse_bad htext hstop hdefault]
                simp only [hloop]
                rfl
              · have hrestLen : rest.length < fuel := by
                  rw [List.length_append, List.length_cons] at hlen
                  omega
                have hrestNul : 0 ∉ rest := by
                  intro hmem
                  exact hnul.2 (List.mem_append_right _ (List.mem_cons_of_mem _ hmem))
                rw [walkLoop_directive _ _ _ fuel before text (rest ++ 0 :: after) stop ap s htext
                  hstop hdefault, parse_directive htext hstop hdefault]
                simp only [ih _ rest hrestNul _ _ hrestLen]
                rfl
          · have hparse : parse (ch :: fmt) = .literal ch :: parse fmt := by
              simpa using parse_literals [ch] fmt (by simpa using Ne.symm hch)
            rw [List.cons_append, walkLoop_literal _ _ _ _ _ _ _ (Ne.symm hnul.1) hch,
              ih _ _ hnul.2 _ _ hlen, hparse]
            rfl

/-- A NUL-terminated format prints its items. -/
theorem vprintfmtWith_cstr (printfmt : List Byte → List Arg → σ → Option σ) {fmt : List Byte}
    (hnul : 0 ∉ fmt) (ap : List Arg) (s : σ) :
    vprintfmtWith putch printfmt (cstr fmt) ap s =
      runItems putch (convert putch printfmt) (parse fmt) ap s := by
  rw [vprintfmtWith, vprintfmtLoop_eq_walkLoop]
  refine walkLoop_eq_runItems putch _ id _ [] fmt [] hnul ap s ?_
  simp only [cstr, List.length_append]
  omega

end Walk

section Eval

variable (printfmt : List Byte → List Arg → List Word → Option (List Word))

def evalItem : Item → List Arg → Option (List Arg × List Word)
  | .literal ch, ap => some (ap, [ofUChar ch])
  | .directive flags ch, ap => do
      let (l, ap) ← applyFlags flags Locals.reset ap
      convert record printfmt ch l ap []
  | .verbatim flags text, ap => do
      let (_, ap) ← applyFlags flags Locals.reset ap
      return (ap, ofUChar (ascii '%') :: text.map ofUChar)

def eval : List Item → List Arg → Option (List Arg × List Word)
  | [], ap => some (ap, [])
  | item :: items, ap => do
      let (ap, out) ← evalItem printfmt item ap
      let (ap, rest) ← eval items ap
      return (ap, out ++ rest)

/-- A nested `printfmt` that only adds to the record. -/
def Appends : Prop :=
  ∀ fmt ap out, printfmt fmt ap out = (printfmt fmt ap []).map (out ++ ·)

/-! ## The loop computes the denotation -/

@[simp]
theorem eval_nil (ap : List Arg) : eval printfmt [] ap = some (ap, []) := rfl

@[simp]
theorem eval_literal (ch : Byte) (items : List Item) (ap : List Arg) :
    eval printfmt (.literal ch :: items) ap =
      (eval printfmt items ap).map (fun r => (r.1, ofUChar ch :: r.2)) := by
  rw [eval]
  cases hitems : eval printfmt items ap <;> simp [evalItem, hitems]

@[simp]
theorem eval_directive (flags : List Flag) (ch : Byte) (items : List Item) (ap : List Arg) :
    eval printfmt (.directive flags ch :: items) ap =
      (applyFlags flags Locals.reset ap).bind (fun f =>
        (convert record printfmt ch f.1 f.2 []).bind (fun c =>
          (eval printfmt items c.1).map (fun r => (r.1, c.2 ++ r.2)))) := by
  rw [eval, evalItem]
  simp only [Option.bind_eq_bind, Option.bind_assoc]
  cases applyFlags flags Locals.reset ap with
  | none => rfl
  | some f =>
      simp only [Option.bind_some]
      cases convert record printfmt ch f.1 f.2 [] with
      | none => rfl
      | some c =>
          simp only [Option.bind_some]
          cases eval printfmt items c.1 <;> rfl

@[simp]
theorem eval_verbatim (flags : List Flag) (text : List Byte) (items : List Item)
    (ap : List Arg) :
    eval printfmt (.verbatim flags text :: items) ap =
      (applyFlags flags Locals.reset ap).bind (fun f =>
        (eval printfmt items f.2).map
          (fun r => (r.1, ofUChar (ascii '%') :: (text.map ofUChar ++ r.2)))) := by
  rw [eval, evalItem]
  simp only [Option.bind_eq_bind, Option.bind_assoc]
  cases applyFlags flags Locals.reset ap with
  | none => rfl
  | some f =>
      simp only [Option.bind_some, Option.pure_def]
      cases eval printfmt items f.2 <;> rfl

theorem eval_literals (text : List Byte) (items : List Item) (ap : List Arg) :
    eval printfmt (text.map Item.literal ++ items) ap =
      (eval printfmt items ap).map (fun r => (r.1, text.map ofUChar ++ r.2)) := by
  induction text with
  | nil => simp
  | cons ch text ih =>
      rw [List.map_cons, List.cons_append, eval_literal, ih]
      cases eval printfmt items ap <;> rfl

/-- Converting into a nonempty record adds to it. -/
theorem convert_record {printfmt : List Byte → List Arg → List Word → Option (List Word)}
    (happends : Appends printfmt) (ch : Byte) (l : Locals) (ap : List Arg) (out : List Word) :
    convert record printfmt ch l ap out =
      (convert record printfmt ch l ap []).map (fun r => (r.1, out ++ r.2)) := by
  apply eq_map_of_rel
  have hrel : Option.Rel (SameArgs fun s t => s = out ++ t)
      (convert record printfmt ch l ap out) (convert record printfmt ch l ap []) := by
    refine convert_lockstep (fun ch s t h => by simp [record, h]) ?_ ch l ap
      (List.append_nil out).symm
    intro fmt _ ap s t h
    rw [happends fmt ap s, happends fmt ap t]
    cases printfmt fmt ap [] with
    | none => exact Option.Rel.none
    | some r => exact Option.Rel.some (by simp [h])
  exact rel_mono hrel fun x y h => Prod.ext h.1 h.2

/-- Printed into a record, the items leave their denotation there. -/
theorem runItems_record {printfmt : List Byte → List Arg → List Word → Option (List Word)}
    (happends : Appends printfmt) (items : List Item) (ap : List Arg) (out : List Word) :
    runItems record (convert record printfmt) items ap out =
      (eval printfmt items ap).map (fun r => (r.1, out ++ r.2)) := by
  induction items generalizing ap out with
  | nil => simp [runItems]
  | cons item items ih =>
      cases item with
      | literal ch =>
          rw [runItems, ih, eval_literal]
          cases eval printfmt items ap <;> simp [record]
      | directive flags ch =>
          rw [runItems, eval_directive]
          cases applyFlags flags Locals.reset ap with
          | none => rfl
          | some f =>
              simp only [Option.bind_eq_bind, Option.bind_some]
              rw [convert_record happends]
              cases convert record printfmt ch f.1 f.2 [] with
              | none => rfl
              | some c =>
                  simp only [Option.map_some, Option.bind_some, ih]
                  cases eval printfmt items c.1 <;> simp
      | verbatim flags text =>
          rw [runItems, eval_verbatim]
          cases applyFlags flags Locals.reset ap with
          | none => rfl
          | some f =>
              simp only [Option.bind_eq_bind, Option.bind_some, ih, feed_record]
              cases eval printfmt items f.2 <;> simp

theorem printfmt_appends : Appends (Printfmt.printfmt record) := by
  intro fmt ap out
  apply eq_map_of_rel
  exact printfmt_lockstep (R := fun s t => s = out ++ t)
    (fun ch s t h => by simp [record, h]) fmt ap out [] (List.append_nil out).symm

end Eval

/-- The stream of a NUL-terminated format is the text of its items. -/
theorem stream_cstr {fmt : List Byte} (hnul : 0 ∉ fmt) (ap : List Arg) :
    stream (cstr fmt) ap = eval (printfmt record) (parse fmt) ap := by
  rw [stream, vprintfmt, vprintfmtWith_cstr record _ hnul, runItems_record printfmt_appends]
  cases eval (printfmt record) (parse fmt) ap <;> simp

/-! ## The nested calls -/

/-- The two formats `%e` prints with never reach a `%e`, so they come out the
same whatever a nested call would do. -/
theorem errorFormats_closed {σ : Type} (putch : Word → σ → σ)
    (printfmt printfmt' : List Byte → List Arg → σ → Option σ)
    {fmt : List Byte} (hfmt : fmt ∈ errorFormats) (ap : List Arg) (s : σ) :
    vprintfmtWith putch printfmt fmt ap s = vprintfmtWith putch printfmt' fmt ap s := by
  have hconvert (ch : Byte) (hch : switchLabel ch ≠ .error) (l : Locals) (ap : List Arg)
      (s : σ) : convert putch printfmt ch l ap s = convert putch printfmt' ch l ap s := by
    unfold convert
    cases hcase : switchLabel ch <;> first | rfl | exact absurd hcase hch
  have hitems (text : List Byte) (ch : Byte) (hch : switchLabel ch ≠ .error) :
      runItems putch (convert putch printfmt) (text.map Item.literal ++ [.directive [] ch]) ap s =
        runItems putch (convert putch printfmt') (text.map Item.literal ++ [.directive [] ch])
          ap s := by
    rw [runItems_literals, runItems_literals]
    simp only [runItems, hconvert ch hch]
  simp only [errorFormats, List.mem_cons, List.not_mem_nil, or_false] at hfmt
  rcases hfmt with rfl | rfl
  · rw [vprintfmtWith_cstr _ _ (by decide), vprintfmtWith_cstr _ _ (by decide)]
    exact hitems (bytes "error ") (ascii 'd') (by decide)
  · rw [vprintfmtWith_cstr _ _ (by decide), vprintfmtWith_cstr _ _ (by decide)]
    exact hitems [] (ascii 's') (by decide)

/-- The nested calls of `%e` are calls of `vprintfmt` itself. -/
theorem vprintfmt_nested {σ : Type} (putch : Word → σ → σ) (fmt : List Byte)
    (ap : List Arg) (s : σ) :
    vprintfmt putch fmt ap s =
      vprintfmtWith putch (fun fmt ap s => (vprintfmt putch fmt ap s).map Prod.snd)
        fmt ap s := by
  have hrel : Option.Rel (SameArgs Eq)
      (vprintfmtWith putch (printfmt putch) fmt ap s)
      (vprintfmtWith putch (fun fmt ap s => (vprintfmt putch fmt ap s).map Prod.snd)
        fmt ap s) := by
    refine vprintfmtLoop_lockstep (fun ch s t h => congrArg (putch ch) h) ?_ _ _ ap rfl
    rintro fmt hfmt ap s t rfl
    have hsame : printfmt putch fmt ap s = (vprintfmt putch fmt ap s).map Prod.snd :=
      congrArg (Option.map Prod.snd) (errorFormats_closed putch _ _ hfmt ap s)
    rw [hsame]
    cases vprintfmt putch fmt ap s with
    | none => exact Option.Rel.none
    | some r => exact Option.Rel.some rfl
  exact eq_of_rel (rel_mono hrel fun x y h => Prod.ext h.1 h.2)

end JOSKernel.Lib.Printfmt
