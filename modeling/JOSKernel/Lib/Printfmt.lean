import JOSKernel.General.ByteCursor
import JOSKernel.Lib.StringRoutines

/-!
# The formatter (`lib/printfmt.c`)

`vprintfmt` is generic in its character sink: `putch` consumes an `int` and
updates the state behind `putdat`.  The format string is walked by a pointer
that a bad escape moves backwards, so the main loop runs on fuel.  A result
`none` is undefined behaviour of the C program: a read outside an array, or a
`va_arg` the caller did not supply.
-/

namespace JOSKernel.Lib.Printfmt

open JOSKernel.General.MachineInt
open JOSKernel.General.ByteCursor
open JOSKernel.Lib.StringRoutines

/-! ## Arguments -/

/-- One variadic argument.  A pointer carries its value and the bytes readable
from it, which the sink never changes. -/
inductive Arg where
  | int (v : Word)
  | llong (v : BitVec 64)
  | ptr (p : Word) (s : List Byte)
deriving DecidableEq

/-- `va_arg` at any type of one machine word. -/
def vaWord : List Arg → Option (Word × List Arg)
  | .int v :: ap => some (v, ap)
  | .ptr p _ :: ap => some (p, ap)
  | _ => none

/-- `va_arg(ap, long long)`, signed or not. -/
def vaLlong : List Arg → Option (BitVec 64 × List Arg)
  | .llong v :: ap => some (v, ap)
  | _ => none

/-- `va_arg(ap, char *)`. -/
def vaPtr : List Arg → Option (Word × List Byte × List Arg)
  | .ptr p s :: ap => some (p, s, ap)
  | _ => none

/-- Get an unsigned int of various possible sizes, depending on `lflag`. -/
def getuint (ap : List Arg) (lflag : Int) : Option (BitVec 64 × List Arg) :=
  if lflag ≥ 2 then vaLlong ap
  else do
    let (v, ap) ← vaWord ap
    return (v.setWidth 64, ap)

/-- Same as `getuint` but signed. -/
def getint (ap : List Arg) (lflag : Int) : Option (BitVec 64 × List Arg) :=
  if lflag ≥ 2 then vaLlong ap
  else do
    let (v, ap) ← vaWord ap
    return (v.signExtend 64, ap)

/-- The address of a string literal; only its being non-NULL is ever tested. -/
def literalAddr : Word := 0xF0100000#32

def literal (s : String) : Arg := .ptr literalAddr (cstr (bytes s))

/-! ## Error strings -/

def MAXERROR : Int := 8

/-- `error_string`, indexed by error code; `none` is a NULL entry. -/
def errorTable : List (Option String) :=
  [none,
   some "unspecified error",
   some "bad environment",
   some "invalid parameter",
   some "out of memory",
   some "out of environments",
   some "segmentation fault",
   none]

/-- The read `error_string[err]`.  An index outside the table has no value in C. -/
def errorString (err : Int) : Option (Option String) :=
  if 0 ≤ err then errorTable[err.toNat]? else none

/-! ## Numbers -/

/-- A base that the digit string of `printnum` covers. -/
structure Base where
  value : Nat
  two_le : 2 ≤ value
  le_sixteen : value ≤ 16

def octal : Base := ⟨8, by decide, by decide⟩

def decimal : Base := ⟨10, by decide, by decide⟩

def hexadecimal : Base := ⟨16, by decide, by decide⟩

/-- `"0123456789abcdef"[d]`. -/
def digit (d : Nat) : Byte := (bytes "0123456789abcdef").getD d 0

section Sink

variable {σ : Type} (putch : Word → σ → σ)

/-- A loop whose body is one call of `putch` on the same character. -/
def putMany (ch : Word) : Nat → σ → σ
  | 0, s => s
  | count + 1, s => putMany ch count (putch ch s)

/-- Print a number in the given base.  `while (--width > 0)` runs its body
once for each positive value `width` takes. -/
def printnum (num : Nat) (base : Base) (width : Int) (padc : Word) (s : σ) : σ :=
  if _h : num ≥ base.value then
    putch (ofChar (digit (num % base.value)))
      (printnum (num / base.value) base (int32 (width - 1)) padc s)
  else
    putch (ofChar (digit (num % base.value)))
      (putMany putch padc (int32 (width - 1)).toNat s)
termination_by num
decreasing_by
  have := base.two_le
  exact Nat.div_lt_self (by omega) (by omega)

/-! ## Escapes -/

/-- The locals that every `%` resets. -/
structure Locals where
  padc : Byte
  width : Int
  precision : Int
  lflag : Int
  altflag : Bool

def Locals.reset : Locals := ⟨ascii ' ', -1, -1, 0, false⟩

/-- The statement at the label `process_precision`. -/
def Locals.processPrecision (l : Locals) : Locals :=
  if l.width < 0 then { l with width := l.precision, precision := -1 } else l

/-- The `case` labels of the switch. -/
inductive Label where
  | minus | zero | digit | star | dot | hash | long
  | char | error | string | decimal | unsigned | octal | pointer | hex
  | percent | default
deriving DecidableEq

def switchLabel (ch : Byte) : Label :=
  if ch = ascii '-' then .minus
  else if ch = ascii '0' then .zero
  else if (ascii '1').toNat ≤ ch.toNat ∧ ch.toNat ≤ (ascii '9').toNat then .digit
  else if ch = ascii '*' then .star
  else if ch = ascii '.' then .dot
  else if ch = ascii '#' then .hash
  else if ch = ascii 'l' then .long
  else if ch = ascii 'c' then .char
  else if ch = ascii 'e' then .error
  else if ch = ascii 's' then .string
  else if ch = ascii 'd' then .decimal
  else if ch = ascii 'u' then .unsigned
  else if ch = ascii 'o' then .octal
  else if ch = ascii 'p' then .pointer
  else if ch = ascii 'x' then .hex
  else if ch = ascii '%' then .percent
  else .default

/-- `ch < '0' || ch > '9'` fails; a byte with its top bit set is negative there. -/
def isDigit (ch : Byte) : Bool :=
  (ascii '0').toNat ≤ ch.toNat && ch.toNat ≤ (ascii '9').toNat

/-- One round of the digit loop: `precision * 10 + ch - '0'`. -/
def pushDigit (precision : Int) (ch : Byte) : Int :=
  int32 (precision * 10 + ch.toNat - (ascii '0').toNat)

/-- The digit loop, from the digit `ch` and the pointer behind it. -/
def digitLoop (precision : Int) (ch : Byte) (before : List Byte) :
    List Byte → Option (Int × Cursor)
  | [] => none
  | next :: after =>
      if isDigit next then
        digitLoop (pushDigit precision ch) next (next :: before) after
      else some (pushDigit precision ch, ⟨before, next :: after⟩)

/-- The flags, width, precision and length of one escape: every label that
ends in `goto reswitch`.  Stops behind the first other character. -/
def reswitch : Nat → Locals → Cursor → List Arg →
    Option (Byte × Locals × Cursor × List Arg)
  | 0, _, _, _ => none
  | fuel + 1, l, fmt, ap => do
      let (ch, fmt) ← fmt.next?
      match switchLabel ch with
      | .minus => reswitch fuel { l with padc := ascii '-' } fmt ap
      | .zero => reswitch fuel { l with padc := ascii '0' } fmt ap
      | .digit =>
          let (precision, fmt) ← digitLoop 0 ch fmt.before fmt.after
          reswitch fuel { l with precision := precision }.processPrecision fmt ap
      | .star =>
          let (v, ap) ← vaWord ap
          reswitch fuel { l with precision := v.toInt }.processPrecision fmt ap
      | .dot => reswitch fuel { l with width := if l.width < 0 then 0 else l.width } fmt ap
      | .hash => reswitch fuel { l with altflag := true } fmt ap
      | .long => reswitch fuel { l with lflag := int32 (l.lflag + 1) } fmt ap
      | _ => some (ch, l, fmt, ap)

/-- The characters of `%s`, until the NUL or the precision is spent. -/
def copyLoop (altflag : Bool) : List Byte → Int → Int → σ → Option (Int × σ)
  | [], _, _, _ => none
  | ch :: p, width, precision, s =>
      if ch = 0 then some (width, s)
      else if precision < 0 ∨ precision - 1 ≥ 0 then
        let shown :=
          if altflag ∧ ((ofChar ch).toInt < (ascii ' ').toNat ∨
              (ofChar ch).toInt > (ascii '~').toNat) then
            ofChar (ascii '?')
          else ofChar ch
        copyLoop altflag p (int32 (width - 1))
          (if precision < 0 then precision else precision - 1) (putch shown s)
      else some (width, s)

/-- The padding loop of `%s`, and the width it leaves. -/
def padString (l : Locals) (p : List Byte) (s : σ) : Option (Int × σ) :=
  if l.width > 0 ∧ l.padc ≠ ascii '-' then do
    let n ← strnlen p (l.precision % 4294967296).toNat
    let width := int32 (l.width - n)
    some (min width 0, putMany putch (ofChar l.padc) width.toNat s)
  else some (l.width, s)

/-- The case `'s'` on a non-NULL string. -/
def putString (l : Locals) (p : List Byte) (s : σ) : Option σ := do
  let (width, s) ← padString putch l p s
  let (width, s) ← copyLoop putch l.altflag p width l.precision s
  return putMany putch (ofChar (ascii ' ')) width.toNat s

/-- The code at the label `number`. -/
def number (num : BitVec 64) (base : Base) (l : Locals) (s : σ) : σ :=
  printnum putch num.toNat base l.width (ofChar l.padc) s

variable (printfmt : List Byte → List Arg → σ → Option σ)

/-- The formats of the nested `printfmt` calls. -/
def errorFormats : List (List Byte) := [cstr (bytes "error %d"), cstr (bytes "%s")]

/-- The case `'e'`. -/
def putError (err : Int) (s : σ) : Option σ := do
  let err := if err < 0 then int32 (-err) else err
  let unknown := printfmt (cstr (bytes "error %d")) [.int (BitVec.ofInt 32 err)] s
  if err ≥ MAXERROR then unknown
  else
    match ← errorString err with
    | none => unknown
    | some p => printfmt (cstr (bytes "%s")) [literal p] s

/-- The conversions: the labels that end in `break` without moving `fmt`. -/
def convert (ch : Byte) (l : Locals) (ap : List Arg) (s : σ) : Option (List Arg × σ) :=
  match switchLabel ch with
  | .char => do
      let (v, ap) ← vaWord ap
      return (ap, putch v s)
  | .error => do
      let (v, ap) ← vaWord ap
      return (ap, ← putError printfmt v.toInt s)
  | .string => do
      let (p, str, ap) ← vaPtr ap
      let str := if p = 0 then cstr (bytes "(null)") else str
      return (ap, ← putString putch l str s)
  | .decimal => do
      let (num, ap) ← getint ap l.lflag
      if num.toInt < 0 then
        return (ap, number putch (-num) decimal l (putch (ofChar (ascii '-')) s))
      else return (ap, number putch num decimal l s)
  | .unsigned => do
      let (num, ap) ← getuint ap l.lflag
      return (ap, number putch num decimal l s)
  | .octal => do
      let (num, ap) ← getuint ap l.lflag
      return (ap, number putch num octal l s)
  | .pointer => do
      let (p, ap) ← vaWord ap
      let s := putch (ofChar (ascii 'x')) (putch (ofChar (ascii '0')) s)
      return (ap, number putch (p.setWidth 64) hexadecimal l s)
  | .hex => do
      let (num, ap) ← getuint ap l.lflag
      return (ap, number putch num hexadecimal l s)
  | .percent => some (ap, putch (ofUChar ch) s)
  | _ => none

/-! ## The main loop -/

def vprintfmtLoop : Nat → Cursor → List Arg → σ → Option (List Arg × σ)
  | 0, _, _, _ => none
  | fuel + 1, fmt, ap, s => do
      let (ch, fmt) ← fmt.next?
      if ch = ascii '%' then
        let (ch, l, fmt, ap) ← reswitch (fmt.after.length + 1) Locals.reset fmt ap
        if switchLabel ch = .default then
          let fmt ← fmt.back?
          let fmt ← Cursor.seekBack? (ascii '%') fmt.before fmt.after
          vprintfmtLoop fuel fmt ap (putch (ofUChar (ascii '%')) s)
        else
          let (ap, s) ← convert putch printfmt ch l ap s
          vprintfmtLoop fuel fmt ap s
      else if ch = 0 then some (ap, s)
      else vprintfmtLoop fuel fmt ap (putch (ofUChar ch) s)

/-- `vprintfmt` with the nested `printfmt` calls of `%e` made by `printfmt`.
The remaining arguments are the final position of `ap`. -/
def vprintfmtWith (fmt : List Byte) (ap : List Arg) (s : σ) : Option (List Arg × σ) :=
  vprintfmtLoop putch printfmt (fmt.length + 1) (Cursor.start fmt) ap s

end Sink

/-- `printfmt` as `%e` calls it.  Neither of its two formats has a `%e` itself,
so the nesting ends there. -/
def printfmt {σ : Type} (putch : Word → σ → σ) (fmt : List Byte) (ap : List Arg) (s : σ) :
    Option σ :=
  (vprintfmtWith putch (fun _ _ _ => none) fmt ap s).map Prod.snd

def vprintfmt {σ : Type} (putch : Word → σ → σ) (fmt : List Byte) (ap : List Arg) (s : σ) :
    Option (List Arg × σ) :=
  vprintfmtWith putch (printfmt putch) fmt ap s

end JOSKernel.Lib.Printfmt
