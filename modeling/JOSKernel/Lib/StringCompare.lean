import JOSKernel.General.ThreeWay
import JOSKernel.Lib.StringRoutines

/-!
# String comparison (`lib/string.c`)

`strcmp` and `strncmp` compare characters as promoted signed `char`s but
subtract them as `unsigned char`s; `memcmp` reads `uint8_t`s throughout.  All
three order strings by their unsigned bytes, a proper prefix first.
-/

namespace JOSKernel.Lib.StringCompare

open JOSKernel.General.MachineInt
open JOSKernel.General.ThreeWay
open JOSKernel.Lib.StringRoutines

/-- `(int) ((unsigned char) *p - (unsigned char) *q)`. -/
def difference (p q : Byte) : Int := (ofUChar p - ofUChar q).toInt

def strcmp : List Byte → List Byte → Option Int
  | p :: ps, q :: qs =>
      if ofChar p ≠ 0 ∧ ofChar p = ofChar q then strcmp ps qs else some (difference p q)
  | _, _ => none

def strncmp : List Byte → List Byte → Nat → Option Int
  | _, _, 0 => some 0
  | p :: ps, q :: qs, n + 1 =>
      if ofChar p ≠ 0 ∧ ofChar p = ofChar q then strncmp ps qs n else some (difference p q)
  | _, _, _ + 1 => none

def memcmp : List Byte → List Byte → Nat → Option Int
  | _, _, 0 => some 0
  | s1 :: v1, s2 :: v2, n + 1 =>
      if ofUChar s1 ≠ ofUChar s2 then some (difference s1 s2) else memcmp v1 v2 n
  | _, _, _ + 1 => none

/-! ## Promotion -/

theorem ofChar_inj {p q : Byte} : ofChar p = ofChar q ↔ p = q := by
  constructor
  · intro h
    rw [← ofChar_setWidth p, h, ofChar_setWidth]
  · exact congrArg ofChar

theorem ofChar_eq_zero {p : Byte} : ofChar p = 0 ↔ p = 0 := ofChar_inj (q := 0)

theorem ofUChar_inj {p q : Byte} : ofUChar p = ofUChar q ↔ p = q := by
  constructor
  · intro h
    have hnat := congrArg BitVec.toNat h
    rw [ofUChar, ofUChar, BitVec.toNat_setWidth_of_le (by decide),
      BitVec.toNat_setWidth_of_le (by decide)] at hnat
    exact BitVec.eq_of_toNat_eq hnat
  · exact congrArg ofUChar

theorem toInt_ofUChar (p : Byte) : (ofUChar p).toInt = p.toNat := by
  rw [ofUChar, BitVec.toInt_setWidth, Int.bmod_def]
  have hp := p.isLt
  simp only [Nat.reducePow] at hp ⊢
  split <;> omega

/-- The subtraction of two unsigned bytes does not wrap. -/
theorem difference_eq (p q : Byte) : difference p q = (p.toNat : Int) - q.toNat := by
  have hp := p.isLt
  have hq := q.isLt
  rw [difference, BitVec.toInt_sub, toInt_ofUChar, toInt_ofUChar, Int.bmod_def]
  simp only [Nat.reducePow] at hp hq ⊢
  split <;> omega

theorem difference_tells (p q : Byte) : Tells (difference p q) p.toNat q.toNat := by
  rw [difference_eq]
  exact tells_sub _ _

/-! ## The order of texts -/

/-- The bytes of a text as `unsigned char`s. -/
def unsigned (s : List Byte) : List Nat := s.map BitVec.toNat

theorem unsigned_inj {s t : List Byte} : unsigned s = unsigned t ↔ s = t :=
  (List.map_injective_iff.mpr fun _ _ => BitVec.eq_of_toNat_eq).eq_iff

/-- A NUL sorts before every character. -/
theorem difference_nul {p : Byte} (h : p ≠ 0) : difference 0 p < 0 ∧ 0 < difference p 0 := by
  have hp : p.toNat ≠ 0 := fun hzero => h (BitVec.eq_of_toNat_eq hzero)
  have hzero : (0 : Byte).toNat = 0 := rfl
  rw [difference_eq, difference_eq, hzero]
  omega

/-- `strncmp` stops at the first difference, at the NUL or after `n` bytes. -/
theorem strncmp_tells {s t : List Byte} (hs : 0 ∉ s) (ht : 0 ∉ t) (rest rest' : List Byte)
    (n : Nat) :
    ∃ z, strncmp (s ++ 0 :: rest) (t ++ 0 :: rest') n = some z ∧
      Tells z (unsigned (s.take n)) (unsigned (t.take n)) := by
  induction n generalizing s t with
  | zero => exact ⟨0, by rw [strncmp], tells_refl _⟩
  | succ n ih =>
      cases s with
      | nil =>
          rw [List.nil_append]
          cases t with
          | nil =>
              refine ⟨0, ?_, tells_refl _⟩
              rw [List.nil_append, strncmp, if_neg fun h => h.1 rfl]
              rfl
          | cons q t =>
              have hq : q ≠ 0 := fun h => ht (h ▸ List.mem_cons_self)
              refine ⟨difference 0 q, ?_, tells_nil_cons (difference_nul hq).1 _ _⟩
              rw [List.cons_append, strncmp, if_neg fun h => h.1 rfl]
      | cons p s =>
          have hp : p ≠ 0 := fun h => hs (h ▸ List.mem_cons_self)
          rw [List.cons_append]
          cases t with
          | nil =>
              refine ⟨difference p 0, ?_, tells_cons_nil (difference_nul hp).2 _ _⟩
              rw [List.nil_append, strncmp, if_neg fun h => hp (ofChar_inj.mp h.2)]
          | cons q t =>
              rw [List.cons_append, strncmp]
              by_cases hpq : p = q
              · obtain ⟨z, hz, htells⟩ := ih (fun h => hs (List.mem_cons_of_mem _ h))
                  fun h => ht (List.mem_cons_of_mem _ h)
                rw [if_pos ⟨fun h => hp (ofChar_eq_zero.mp h), congrArg ofChar hpq⟩, ← hpq]
                exact ⟨z, hz, htells.cons p.toNat⟩
              · rw [if_neg fun h => hpq (ofChar_inj.mp h.2)]
                refine ⟨difference p q, rfl, (difference_tells p q).head ?_ _ _⟩
                exact fun h => hpq (BitVec.eq_of_toNat_eq h)

/-- Without a limit in reach `strncmp` is `strcmp`. -/
theorem strcmp_eq_strncmp (s rest q : List Byte) {n : Nat} (h : s.length < n) :
    strcmp (s ++ 0 :: rest) q = strncmp (s ++ 0 :: rest) q n := by
  induction s generalizing q n with
  | nil =>
      obtain ⟨n, rfl⟩ := Nat.exists_eq_add_of_le' h
      cases q with
      | nil => rfl
      | cons q qs => rfl
  | cons p s ih =>
      obtain ⟨n, rfl⟩ := Nat.exists_eq_add_of_le' (Nat.le_trans (Nat.succ_pos _) h)
      cases q with
      | nil => rfl
      | cons q qs =>
          have hrest := ih qs (Nat.lt_of_succ_lt_succ h)
          rw [List.cons_append, strcmp, strncmp, hrest]

theorem strcmp_tells {s t : List Byte} (hs : 0 ∉ s) (ht : 0 ∉ t) (rest rest' : List Byte) :
    ∃ z, strcmp (s ++ 0 :: rest) (t ++ 0 :: rest') = some z ∧
      Tells z (unsigned s) (unsigned t) := by
  have hlimit : s.length < max s.length t.length + 1 :=
    Nat.lt_succ_of_le (Nat.le_max_left _ _)
  obtain ⟨z, hz, htells⟩ := strncmp_tells hs ht rest rest' (max s.length t.length + 1)
  rw [List.take_of_length_le (Nat.le_of_lt hlimit),
    List.take_of_length_le (Nat.le_succ_of_le (Nat.le_max_right _ _))] at htells
  exact ⟨z, by rw [strcmp_eq_strncmp s rest _ hlimit, hz], htells⟩

/-- Before a NUL the two bounded comparisons are the same loop. -/
theorem memcmp_eq_strncmp {p q : List Byte} {n : Nat} (hp : 0 ∉ p.take n) :
    memcmp p q n = strncmp p q n := by
  induction n generalizing p q with
  | zero => rw [memcmp, strncmp]
  | succ n ih =>
      cases p with
      | nil => cases q <;> rfl
      | cons s1 v1 =>
          cases q with
          | nil => rfl
          | cons s2 v2 =>
              rw [List.take_succ_cons, List.mem_cons, not_or] at hp
              rw [memcmp, strncmp, ih hp.2]
              by_cases hsame : s1 = s2
              · rw [if_neg (not_not.mpr (congrArg ofUChar hsame)),
                  if_pos ⟨fun h => hp.1 (ofChar_eq_zero.mp h).symm, congrArg ofChar hsame⟩]
              · rw [if_pos fun h => hsame (ofUChar_inj.mp h),
                  if_neg fun h => hsame (ofChar_inj.mp h.2)]

/-! ## Strings -/

/-- A NUL-terminated string, with the bytes behind its NUL. -/
structure CString where
  text : List Byte
  rest : List Byte
  nulFree : 0 ∉ text

def CString.bytes (s : CString) : List Byte := s.text ++ 0 :: s.rest

/-- The string cut off after `n` bytes. -/
def CString.truncate (s : CString) (n : Nat) : CString where
  text := s.text.take n
  rest := s.rest
  nulFree h := s.nulFree (List.mem_of_mem_take h)

/-- The sign of `strcmp` is the lexicographic order of the unsigned bytes, a
total order on strings; `strncmp` gives the order of the truncated strings, and
`memcmp` the same where the first string has no NUL in reach. -/
theorem string_order (p q r : CString) (n : Nat) :
    ∃ z, strcmp p.bytes q.bytes = some z ∧
      Tells z (unsigned p.text) (unsigned q.text) ∧
      (z = 0 ↔ p.text = q.text) ∧
      (∃ y, strcmp q.bytes p.bytes = some y ∧ y.sign = -z.sign) ∧
      (∃ y x, strcmp q.bytes r.bytes = some y ∧ strcmp p.bytes r.bytes = some x ∧
        (z ≤ 0 → y ≤ 0 → x ≤ 0)) ∧
      ∃ y x, strncmp p.bytes q.bytes n = some y ∧
        strcmp (p.truncate n).bytes (q.truncate n).bytes = some x ∧ y.sign = x.sign ∧
        (0 ∉ p.bytes.take n →
          ∃ w, memcmp p.bytes q.bytes n = some w ∧ w.sign = y.sign) := by
  obtain ⟨z, hz, hpq⟩ := strcmp_tells p.nulFree q.nulFree p.rest q.rest
  obtain ⟨y, hy, hqp⟩ := strcmp_tells q.nulFree p.nulFree q.rest p.rest
  obtain ⟨v, hv, hqr⟩ := strcmp_tells q.nulFree r.nulFree q.rest r.rest
  obtain ⟨w, hw, hpr⟩ := strcmp_tells p.nulFree r.nulFree p.rest r.rest
  obtain ⟨a, ha, hshort⟩ := strncmp_tells p.nulFree q.nulFree p.rest q.rest n
  obtain ⟨b, hb, htrunc⟩ := strcmp_tells (p.truncate n).nulFree (q.truncate n).nulFree
    p.rest q.rest
  refine ⟨z, hz, hpq, ?_, ⟨y, hy, ?_⟩, ⟨v, w, hv, hw, hpq.trans hqr hpr⟩,
    a, b, ha, hb, htrunc.sign_eq hshort, ?_⟩
  · rw [hpq.zero, unsigned_inj]
  · rw [hpq.swap.sign_eq hqp, Int.sign_neg]
  · intro hnul
    exact ⟨a, (memcmp_eq_strncmp hnul).trans ha, rfl⟩

end JOSKernel.Lib.StringCompare
