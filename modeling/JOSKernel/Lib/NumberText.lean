import JOSKernel.General.Positional
import JOSKernel.Lib.FormatItems
import JOSKernel.Lib.Snprintf
import JOSKernel.Lib.StrtolForms

/-!
# Numbers as text

`printnum` emits the numeral of a number behind its padding, and `strtol`
reads a numeral by Horner's rule in 32-bit arithmetic.  The text of every
32-bit number therefore reads back as the number.
-/

namespace JOSKernel.Lib.NumberText

open JOSKernel.General.MachineInt
open JOSKernel.General.ByteMemory
open JOSKernel.General.Positional
open JOSKernel.Lib.Printfmt
open JOSKernel.Lib.StringRoutines
open JOSKernel.Lib.Snprintf
open JOSKernel.Lib.StrtolForms (Form Sign signed strtol_form)

/-! ## What `printnum` prints -/

def numeralText (base : Base) (n : Nat) : List Byte := (numeral base.value n).map digit

theorem numeralText_of_lt {base : Base} {n : Nat} (h : n < base.value) :
    numeralText base n = [digit n] := by
  rw [numeralText, numeral_of_lt h, List.map_singleton]

theorem numeralText_of_ge {base : Base} {n : Nat} (h : base.value ≤ n) :
    numeralText base n = numeralText base (n / base.value) ++ [digit (n % base.value)] := by
  rw [numeralText, numeral_of_ge base.two_le h, List.map_append, List.map_singleton, numeralText]

theorem numeralText_length_le {base : Base} {n k : Nat} (hk : 1 ≤ k) (h : n < base.value ^ k) :
    (numeralText base n).length ≤ k := by
  rw [numeralText, List.length_map]
  exact numeral_length_le base.two_le hk h

theorem digits_length (base : Base) (num : BitVec 64) :
    1 ≤ (numeralText base num.toNat).length ∧ (numeralText base num.toNat).length ≤ 64 := by
  constructor
  · rw [numeralText, List.length_map]
    exact List.length_pos_of_ne_nil (numeral_ne_nil base.two_le _)
  · apply numeralText_length_le (by decide)
    exact Nat.lt_of_lt_of_le num.isLt (Nat.pow_le_pow_left base.two_le 64)

section Printnum

variable {σ : Type} (putch : Word → σ → σ)

theorem putMany_eq_feed (ch : Word) (count : Nat) (s : σ) :
    putMany putch ch count s = feed putch (List.replicate count ch) s := by
  induction count generalizing s with
  | zero => rfl
  | succ count ih =>
      rw [putMany, ih, List.replicate_succ, feed_cons]

/-- The recursion of `printnum` counts the width down once for each digit, so
the padding makes up for the digits exactly. -/
theorem printnum_eq_feed (num : Nat) (base : Base) (width : Int) (padc : Word) (s : σ) :
    printnum putch num base width padc s =
      feed putch
        (List.replicate (int32 (width - (numeralText base num).length)).toNat padc ++
          (numeralText base num).map ofChar) s := by
  induction num using numeral_induction base.two_le generalizing width with
  | hdigit n hn =>
      rw [printnum, dif_neg (by omega), numeralText_of_lt hn, putMany_eq_feed, feed_append,
        Nat.mod_eq_of_lt hn]
      rfl
  | hstep n hn ih =>
      have hwidth : int32 (int32 (width - 1) - (numeralText base (n / base.value)).length) =
          int32 (width - (numeralText base n).length) := by
        rw [numeralText_of_ge hn, List.length_append, List.length_singleton]
        apply int32_congr
        have := int32_emod (width - 1)
        omega
      rw [printnum, dif_pos hn, ih, hwidth, numeralText_of_ge hn]
      simp

/-- The digits of a number in a base: its positional numeral without leading zeros. -/
structure Canonical (base : Base) (num : Nat) (ds : List Nat) : Prop where
  nonempty : 1 ≤ ds.length
  digits : ∀ d ∈ ds, d < base.value
  value : Nat.ofDigits base.value ds.reverse = num
  leading : num ≠ 0 → ds.head? ≠ some 0
  zero : num = 0 → ds = [0]

theorem canonical_numeral (base : Base) (num : Nat) :
    Canonical base num (numeral base.value num) := by
  constructor
  · exact List.length_pos_of_ne_nil (numeral_ne_nil base.two_le num)
  · exact numeral_lt base.two_le num
  · rw [← horner_zero]
    exact horner_numeral base.two_le num
  · intro hnum
    obtain ⟨d, ds, hds, hd⟩ := numeral_cons base.two_le (Nat.one_le_iff_ne_zero.mpr hnum)
    rw [hds, List.head?_cons, ne_eq, Option.some.injEq]
    exact Nat.ne_of_gt hd
  · rintro rfl
    rfl

/-- `printnum` emits the padding that is missing from the width, then the
canonical digits of the number. -/
theorem printnum_canonical (num : BitVec 64) (base : Base) {width : Int} (hlow : -1 ≤ width)
    (hhigh : width < 2147483648) (padc : Word) (s : σ) :
    ∃ ds, Canonical base num.toNat ds ∧
      printnum putch num.toNat base width padc s =
        feed putch
          (List.replicate (max 0 (width - ds.length)).toNat padc ++
            ds.map fun d => ofChar (digit d)) s := by
  refine ⟨numeral base.value num.toNat, canonical_numeral base _, ?_⟩
  obtain ⟨_, hlength⟩ := digits_length base num
  have hcount : (numeralText base num.toNat).length = (numeral base.value num.toNat).length :=
    List.length_map _
  have hpad : (int32 (width - (numeralText base num.toNat).length)).toNat =
      (max 0 (width - (numeral base.value num.toNat).length)).toNat := by
    rw [int32_of_range (by omega) (by omega), hcount]
    omega
  have htext : (numeralText base num.toNat).map ofChar =
      (numeral base.value num.toNat).map fun d => ofChar (digit d) :=
    List.map_map
  rw [printnum_eq_feed, hpad, htext]

/-- Two digits of `255` in base sixteen behind two blanks. -/
theorem printnum_canonical_hex :
    ∃ ds, Canonical hexadecimal 255 ds ∧
      printnum record 255 hexadecimal 4 (ofChar (ascii ' ')) [] =
        feed record
          (List.replicate (max 0 ((4 : Int) - ds.length)).toNat (ofChar (ascii ' ')) ++
            ds.map fun d => ofChar (digit d)) [] :=
  printnum_canonical record 255#64 hexadecimal (by decide) (by decide) (ofChar (ascii ' ')) []

/-- Without a width the numeral stands alone. -/
theorem number_eq_feed (num : BitVec 64) (base : Base) (l : Locals) (hwidth : l.width = -1)
    (s : σ) :
    number putch num base l s = feed putch ((numeralText base num.toNat).map ofChar) s := by
  have hlength := (digits_length base num).2
  have hpad : (int32 (-1 - (numeralText base num.toNat).length)).toNat = 0 := by
    rw [int32_of_range (by omega) (by omega)]
    omega
  rw [number, printnum_eq_feed, hwidth, hpad, List.replicate_zero, List.nil_append]

end Printnum

/-! ## What `strtol` reads -/

theorem digitValue_digit {d : Nat} (h : d < 16) : digitValue (digit d) = some d := by
  revert d
  decide

theorem digit_not_blank {d : Nat} (h : d < 16) : digit d ≠ ascii ' ' ∧ digit d ≠ 9 := by
  revert d
  decide

theorem digit_ne_x {d : Nat} (h : d < 16) : digit d ≠ ascii 'x' := by
  revert d
  decide

/-- The character behind the first digit is a digit or the NUL, so digits do
not start with the prefix `0x`. -/
theorem digits_unmarked {ds : List Nat} (hds : ∀ d ∈ ds, d < 16) (rest : List Byte) :
    ¬ bytes "0x" <+: ds.map digit ++ 0 :: rest := by
  rintro ⟨more, hmore⟩
  cases ds with
  | nil => exact absurd (List.cons.inj hmore).1 (by decide)
  | cons d ds =>
      have hafter : ascii 'x' :: more = ds.map digit ++ 0 :: rest := (List.cons.inj hmore).2
      cases ds with
      | nil => exact absurd (List.cons.inj hafter).1 (by decide)
      | cons next ds =>
          have hnext := hds next (List.mem_cons_of_mem _ List.mem_cons_self)
          exact digit_ne_x hnext (List.cons.inj hafter).1.symm

/-- A numeral behind a sign is the text of a number. -/
theorem numeral_form (base : Base) {sign : List Byte} {neg : Bool} (hsign : Sign sign neg) (n : Nat)
    (rest : List Byte) :
    Form base.value [] sign [] (numeralText base n) (0 :: rest) neg base.value
      (numeral base.value n) where
  blank ch hch := absurd hch List.not_mem_nil
  sign := hsign
  mark := by
    refine .given (Nat.ne_zero_of_lt base.two_le) fun _ => digits_unmarked ?_ rest
    exact fun d hd => Nat.lt_of_lt_of_le (numeral_lt base.two_le n d hd) base.le_sixteen
  digit := by
    rw [numeralText, List.forall₂_map_left_iff, List.forall₂_same]
    intro d hd
    have hlt := numeral_lt base.two_le n d hd
    exact ⟨digitValue_digit (Nat.lt_of_lt_of_le hlt base.le_sixteen), hlt⟩
  stop := ⟨0, rest, rfl, fun d hd => by cases hd.1⟩

/-- A numeral behind a sign reads as the signed number, up to the NUL. -/
theorem strtol_numeral (base : Base) {sign : List Byte} {neg : Bool} (hsign : Sign sign neg)
    (n : Nat) (rest : List Byte) :
    strtol (sign ++ (numeralText base n ++ 0 :: rest)) base.value =
      some (int32 (signed neg n), 0 :: rest) := by
  have hform := numeral_form base hsign n rest
  have hne : numeralText base n ≠ [] := by
    rw [numeralText, ne_eq, List.map_eq_nil_iff]
    exact numeral_ne_nil base.two_le n
  have hread := strtol_form hform (fun _ _ => hform.gap_ends hne) fun _ _ _ hch =>
    (hform.opens hne hch).2
  rw [← horner_zero, horner_numeral base.two_le] at hread
  exact hread

/-! ## The round trip -/

/-- The text of a signed number. -/
def signedText (z : Int) : List Byte :=
  if z < 0 then ascii '-' :: numeralText decimal z.natAbs else numeralText decimal z.natAbs

/-- The formats of one machine word, the base of each and the text it stands for. -/
def wordFormats : List (List Byte × Base × (Word → List Byte)) :=
  [(bytes "%d", decimal, fun n => signedText n.toInt),
   (bytes "%ld", decimal, fun n => signedText n.toInt),
   (bytes "%u", decimal, fun n => numeralText decimal n.toNat),
   (bytes "%o", octal, fun n => numeralText octal n.toNat),
   (bytes "%x", hexadecimal, fun n => numeralText hexadecimal n.toNat)]

/-- A format that is one directive prints what its conversion prints. -/
theorem stream_directive {fmt : List Byte} (hnul : 0 ∉ fmt) {flags : List Flag} {ch : Byte}
    (hparse : parse fmt = [.directive flags ch]) (ap : List Arg) :
    stream (cstr fmt) ap =
      (applyFlags flags Locals.reset ap).bind fun f =>
        convert record (printfmt record) ch f.1 f.2 [] := by
  rw [stream_cstr hnul, hparse, eval_directive]
  congr 1
  funext f
  cases convert record (printfmt record) ch f.1 f.2 [] <;> simp

theorem putMany_record (ch : Word) (count : Nat) (seen : List Word) :
    putMany record ch count seen = seen ++ List.replicate count ch := by
  rw [putMany_eq_feed, feed_record]

theorem number_record (num : BitVec 64) (base : Base) (l : Locals) (hwidth : l.width = -1)
    (out : List Word) :
    number record num base l out = out ++ (numeralText base num.toNat).map ofChar := by
  rw [number_eq_feed _ _ _ _ hwidth, feed_record]

/-- The magnitude that case `'d'` prints. -/
theorem toNat_signed (num : BitVec 64) :
    (if num.toInt < 0 then -num else num).toNat = num.toInt.natAbs := by
  have hcond := BitVec.toInt_eq_toNat_cond num
  have hlt := num.isLt
  simp only [Nat.reducePow] at hcond hlt
  split
  · rw [BitVec.toNat_neg]
    simp only [Nat.reducePow]
    split at hcond <;> omega
  · split at hcond <;> omega

/-- The case `'d'` on one machine word. -/
theorem signed_record (n : Word) (l : Locals) (hwidth : l.width = -1) :
    (if (n.signExtend 64).toInt < 0 then
      number record (-n.signExtend 64) decimal l (record (ofChar (ascii '-')) [])
    else number record (n.signExtend 64) decimal l []) = (signedText n.toInt).map ofChar := by
  have habs := toNat_signed (n.signExtend 64)
  have hvalue : (n.signExtend 64).toInt = n.toInt := BitVec.toInt_signExtend_of_le (by decide)
  rw [hvalue] at habs ⊢
  rw [signedText]
  by_cases hneg : n.toInt < 0
  · rw [if_pos hneg] at habs ⊢
    rw [if_pos hneg, number_record _ _ _ hwidth, habs]
    rfl
  · rw [if_neg hneg] at habs ⊢
    rw [if_neg hneg, number_record _ _ _ hwidth, habs, List.nil_append]

theorem unsigned_record (n : Word) (base : Base) (l : Locals) (hwidth : l.width = -1) :
    number record (n.setWidth 64) base l [] = (numeralText base n.toNat).map ofChar := by
  rw [number_record _ _ _ hwidth, List.nil_append,
    BitVec.toNat_setWidth_of_le (by decide)]

/-- `%d` and `%ld`: a length below `ll` reads one machine word. -/
theorem convert_signed (n : Word) (l : Locals) (hwidth : l.width = -1) (hlflag : l.lflag < 2) :
    convert record (printfmt record) (ascii 'd') l [.int n] [] =
      some ([], (signedText n.toInt).map ofChar) := by
  have hgetint : getint [.int n] l.lflag = some (n.signExtend 64, []) := by
    rw [getint, if_neg (by omega)]
    rfl
  have hlabel : switchLabel (ascii 'd') = .decimal := by decide
  rw [← signed_record n l hwidth]
  unfold convert
  simp only [hlabel, hgetint, Option.bind_eq_bind, Option.bind_some, Option.pure_def]
  split <;> rfl

theorem convert_unsigned (n : Word) (l : Locals) (hwidth : l.width = -1) (hlflag : l.lflag < 2)
    {ch : Byte} {base : Base}
    (hch : (ch, base) ∈ [(ascii 'u', decimal), (ascii 'o', octal), (ascii 'x', hexadecimal)]) :
    convert record (printfmt record) ch l [.int n] [] =
      some ([], (numeralText base n.toNat).map ofChar) := by
  have hgetuint : getuint [.int n] l.lflag = some (n.setWidth 64, []) := by
    rw [getuint, if_neg (by omega)]
    rfl
  have hdecimal : switchLabel (ascii 'u') = .unsigned := by decide
  have hoctal : switchLabel (ascii 'o') = .octal := by decide
  have hhex : switchLabel (ascii 'x') = .hex := by decide
  rw [← unsigned_record n base l hwidth]
  simp only [List.mem_cons, Prod.mk.injEq, List.not_mem_nil, or_false] at hch
  unfold convert
  rcases hch with ⟨rfl, rfl⟩ | ⟨rfl, rfl⟩ | ⟨rfl, rfl⟩
  · simp only [hdecimal, hgetuint, Option.bind_eq_bind, Option.bind_some, Option.pure_def]
  · simp only [hoctal, hgetuint, Option.bind_eq_bind, Option.bind_some, Option.pure_def]
  · simp only [hhex, hgetuint, Option.bind_eq_bind, Option.bind_some, Option.pure_def]

/-- Each format prints the text of its argument and uses it up. -/
theorem stream_word {fmt : List Byte} {base : Base} {text : Word → List Byte}
    (h : (fmt, base, text) ∈ wordFormats) (n : Word) :
    stream (cstr fmt) [.int n] = some ([], (text n).map ofChar) := by
  simp only [wordFormats, List.mem_cons, Prod.mk.injEq, List.not_mem_nil, or_false] at h
  rcases h with ⟨rfl, rfl, rfl⟩ | ⟨rfl, rfl, rfl⟩ | ⟨rfl, rfl, rfl⟩ | ⟨rfl, rfl, rfl⟩ |
    ⟨rfl, rfl, rfl⟩
  · rw [stream_directive (by decide) (show parse _ = [.directive [] (ascii 'd')] from rfl)]
    exact convert_signed n Locals.reset rfl (by decide)
  · rw [stream_directive (by decide) (show parse _ = [.directive [.long] (ascii 'd')] from rfl)]
    exact convert_signed n { Locals.reset with lflag := int32 (0 + 1) } rfl (by decide)
  · rw [stream_directive (by decide) (show parse _ = [.directive [] (ascii 'u')] from rfl)]
    exact convert_unsigned n Locals.reset rfl (by decide)
      (show (ascii 'u', decimal) ∈ _ by simp)
  · rw [stream_directive (by decide) (show parse _ = [.directive [] (ascii 'o')] from rfl)]
    exact convert_unsigned n Locals.reset rfl (by decide)
      (show (ascii 'o', octal) ∈ _ by simp)
  · rw [stream_directive (by decide) (show parse _ = [.directive [] (ascii 'x')] from rfl)]
    exact convert_unsigned n Locals.reset rfl (by decide)
      (show (ascii 'x', hexadecimal) ∈ _ by simp)

theorem signedText_length_le (n : Word) : (signedText n.toInt).length ≤ 11 := by
  have hrange := toInt_word_range n
  have hdigits : (numeralText decimal n.toInt.natAbs).length ≤ 10 := by
    apply numeralText_length_le (by decide)
    simp only [decimal, Nat.reducePow]
    omega
  rw [signedText]
  split
  · rw [List.length_cons]
    omega
  · omega

theorem unsignedText_length_le (n : Word) {base : Base} (hbase : 8 ≤ base.value) :
    (numeralText base n.toNat).length ≤ 11 := by
  apply numeralText_length_le (by decide)
  refine Nat.lt_of_lt_of_le n.isLt ?_
  exact Nat.le_trans (by decide) (Nat.pow_le_pow_left hbase 11)

/-- A signed text reads as its number. -/
theorem strtol_signedText (n : Word) (rest : List Byte) :
    strtol (signedText n.toInt ++ 0 :: rest) 10 = some (n.toInt, 0 :: rest) := by
  obtain ⟨hlow, hhigh⟩ := toInt_word_range n
  rw [signedText]
  split
  · rename_i hneg
    have hread := strtol_numeral decimal .minus n.toInt.natAbs rest
    have hvalue : signed true n.toInt.natAbs = n.toInt := by
      rw [signed, if_pos rfl]
      omega
    rw [hvalue, int32_of_range hlow hhigh] at hread
    exact hread
  · rename_i hpos
    have hread := strtol_numeral decimal .none n.toInt.natAbs rest
    have hvalue : signed false n.toInt.natAbs = n.toInt := by
      rw [signed, if_neg Bool.false_ne_true]
      omega
    rw [hvalue, int32_of_range hlow hhigh] at hread
    exact hread

/-- An unsigned text reads as the `long` with the same 32 bits. -/
theorem strtol_unsignedText (n : Word) (base : Base) (rest : List Byte) :
    strtol (numeralText base n.toNat ++ 0 :: rest) base.value = some (n.toInt, 0 :: rest) := by
  have hvalue : int32 (signed false n.toNat) = n.toInt := by
    rw [signed, if_neg Bool.false_ne_true, ← toInt_ofInt_word, BitVec.ofInt_natCast,
      BitVec.ofNat_toNat, BitVec.setWidth_eq]
  have hread := strtol_numeral base .none n.toNat rest
  rw [hvalue] at hread
  exact hread

/-- Each text has at most eleven characters and reads back as its number. -/
theorem wordFormats_read {fmt : List Byte} {base : Base} {text : Word → List Byte}
    (h : (fmt, base, text) ∈ wordFormats) (n : Word) :
    (text n).length ≤ 11 ∧ ∀ rest,
      strtol (text n ++ 0 :: rest) base.value = some (n.toInt, 0 :: rest) := by
  simp only [wordFormats, List.mem_cons, Prod.mk.injEq, List.not_mem_nil, or_false] at h
  rcases h with ⟨rfl, rfl, rfl⟩ | ⟨rfl, rfl, rfl⟩ | ⟨rfl, rfl, rfl⟩ | ⟨rfl, rfl, rfl⟩ |
    ⟨rfl, rfl, rfl⟩
  · exact ⟨signedText_length_le n, strtol_signedText n⟩
  · exact ⟨signedText_length_le n, strtol_signedText n⟩
  · exact ⟨unsignedText_length_le n (by decide), strtol_unsignedText n decimal⟩
  · exact ⟨unsignedText_length_le n (by decide), strtol_unsignedText n octal⟩
  · exact ⟨unsignedText_length_le n (by decide), strtol_unsignedText n hexadecimal⟩

/-- `strtol` inverts `snprintf` on every machine word: in a buffer that holds
the whole text it reads the number back as a `long` and stops at the NUL. -/
theorem strtol_snprintf (m : Memory) {buf size : Nat} (hbuf : buf ≠ 0) (hsize : 1 ≤ size)
    (hroom : buf + size ≤ 4294967296) (n : Word) {fmt : List Byte} {base : Base}
    {text : Word → List Byte} (h : (fmt, base, text) ∈ wordFormats) :
    ∃ (len : Nat) (m' : Memory),
      snprintf m buf size (cstr fmt) [.int n] = some ((len : Int), m') ∧ len ≤ 11 ∧
      (len < size →
        m' (buf + len) = 0 ∧
        strtol (readBytes m' buf size) base.value =
          some (n.toInt, (readBytes m' buf size).drop len)) := by
  obtain ⟨hlength, hread⟩ := wordFormats_read h n
  have hstream := stream_word h n
  by_cases hfits : (text n).length < size
  · obtain ⟨m', hcall, htext, hnul⟩ := vsnprintf_text m hbuf hroom hstream hfits
    rw [int32_of_range (by omega) (by omega)] at hcall
    refine ⟨(text n).length, m', hcall, hlength, fun _ => ⟨hnul, ?_⟩⟩
    obtain ⟨hsplit, hdrop⟩ := readBytes_text hfits htext hnul
    rw [hsplit, List.drop_left, hdrop]
    exact hread _
  · have hcall := vsnprintf_eq m hbuf hsize hroom hstream
    rw [List.length_map, int32_of_range (by omega) (by omega)] at hcall
    exact ⟨(text n).length, _, hcall, hlength, fun hlt => absurd hlt hfits⟩

/-- The least signed number through `%d`, in a buffer its text just fits. -/
theorem strtol_snprintf_int_min :
    ∃ (len : Nat) (m' : Memory),
      snprintf (fun _ => 7) (4096 : Nat) (12 : Nat) (cstr (bytes "%d")) [.int 0x80000000#32] =
        some ((len : Int), m') ∧
      strtol (readBytes m' 4096 12) 10 =
        some (-2147483648, (readBytes m' 4096 12).drop len) := by
  have hformat : (bytes "%d", decimal, fun n : Word => signedText n.toInt) ∈ wordFormats :=
    List.mem_cons_self
  obtain ⟨len, m', hcall, hlen, hread⟩ :=
    strtol_snprintf (fun _ => 7) (show 4096 ≠ 0 by decide) (show 1 ≤ 12 by decide) (by decide)
      0x80000000#32 hformat
  exact ⟨len, m', hcall, (hread (by omega)).2⟩

end JOSKernel.Lib.NumberText
