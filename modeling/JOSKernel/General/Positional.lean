import Mathlib.Data.Nat.Digits.Lemmas

/-!
# Positional numerals

The numeral of a natural number in a base is its list of digits with the most
significant digit first; zero has the numeral `[0]`.  Horner's rule reads a
list of digits from the left and gives the number of a numeral back.
-/

namespace JOSKernel.General.Positional

def numeral (b n : Nat) : List Nat :=
  if n = 0 then [0] else (Nat.digits b n).reverse

/-- Read further digits behind a number `v`. -/
def horner (b : Nat) : Nat → List Nat → Nat
  | v, [] => v
  | v, d :: ds => horner b (v * b + d) ds

theorem horner_append (b v : Nat) (ds ds' : List Nat) :
    horner b v (ds ++ ds') = horner b (horner b v ds) ds' := by
  induction ds generalizing v with
  | nil => rfl
  | cons d ds ih => exact ih _

/-- Horner's rule from zero gives the positional value. -/
theorem horner_eq_ofDigits (b v : Nat) (ds : List Nat) :
    horner b v ds = Nat.ofDigits b (ds.reverse ++ [v]) := by
  induction ds generalizing v with
  | nil => rw [horner, List.reverse_nil, List.nil_append, Nat.ofDigits_singleton]
  | cons d ds ih =>
      rw [horner, ih, List.reverse_cons, List.append_assoc, Nat.ofDigits_append,
        Nat.ofDigits_append, Nat.ofDigits_singleton, List.singleton_append, Nat.ofDigits_cons,
        Nat.ofDigits_singleton, Nat.add_comm d, Nat.mul_comm v]

theorem horner_zero (b : Nat) (ds : List Nat) : horner b 0 ds = Nat.ofDigits b ds.reverse := by
  rw [horner_eq_ofDigits, Nat.ofDigits_append, Nat.ofDigits_singleton, Nat.mul_zero, Nat.add_zero]

/-- A number below the base is its own digit. -/
theorem numeral_of_lt {b n : Nat} (h : n < b) : numeral b n = [n] := by
  rw [numeral]
  split
  · rename_i hzero
    rw [hzero]
  · rename_i hzero
    rw [Nat.digits_of_lt b n hzero h, List.reverse_singleton]

/-- From the base on, the last digit stands behind the numeral of the quotient. -/
theorem numeral_of_ge {b n : Nat} (hb : 2 ≤ b) (h : b ≤ n) :
    numeral b n = numeral b (n / b) ++ [n % b] := by
  have hquot : n / b ≠ 0 := (Nat.div_pos h (by omega)).ne'
  rw [numeral, numeral, if_neg (by omega), if_neg hquot,
    Nat.digits_def' (by omega) (by omega), List.reverse_cons]

/-- The digit-by-digit recursion on a number. -/
theorem numeral_induction {b : Nat} (hb : 2 ≤ b) {P : Nat → Prop}
    (hdigit : ∀ n < b, P n) (hstep : ∀ n, b ≤ n → P (n / b) → P n) (n : Nat) : P n := by
  induction n using Nat.strongRecOn with
  | ind n ih =>
      by_cases hn : n < b
      · exact hdigit n hn
      · exact hstep n (by omega) (ih _ (Nat.div_lt_self (by omega) (by omega)))

theorem horner_numeral {b : Nat} (hb : 2 ≤ b) (n : Nat) : horner b 0 (numeral b n) = n := by
  induction n using numeral_induction hb with
  | hdigit n hn =>
      rw [numeral_of_lt hn, horner, horner, Nat.zero_mul, Nat.zero_add]
  | hstep n hn ih =>
      rw [numeral_of_ge hb hn, horner_append, ih, horner, horner, Nat.div_add_mod']

theorem numeral_lt {b : Nat} (hb : 2 ≤ b) (n : Nat) : ∀ d ∈ numeral b n, d < b := by
  intro d hd
  rw [numeral] at hd
  split at hd
  · rw [List.mem_singleton] at hd
    omega
  · exact Nat.digits_lt_base (by omega) (List.mem_reverse.mp hd)

theorem numeral_ne_nil {b : Nat} (hb : 2 ≤ b) (n : Nat) : numeral b n ≠ [] := by
  by_cases hn : n < b
  · rw [numeral_of_lt hn]
    simp
  · rw [numeral_of_ge hb (by omega)]
    simp

/-- The numeral of a positive number has no leading zero. -/
theorem numeral_cons {b : Nat} (hb : 2 ≤ b) {n : Nat} (hn : 1 ≤ n) :
    ∃ d ds, numeral b n = d :: ds ∧ 1 ≤ d := by
  induction n using numeral_induction hb with
  | hdigit n hlt => exact ⟨n, [], numeral_of_lt hlt, hn⟩
  | hstep n hle ih =>
      obtain ⟨d, ds, hquot, hd⟩ := ih (Nat.div_pos hle (by omega))
      exact ⟨d, ds ++ [n % b], by rw [numeral_of_ge hb hle, hquot, List.cons_append], hd⟩

/-- A number below `b ^ k` has at most `k` digits. -/
theorem numeral_length_le {b n k : Nat} (hb : 2 ≤ b) (hk : 1 ≤ k) (h : n < b ^ k) :
    (numeral b n).length ≤ k := by
  rw [numeral]
  split
  · exact hk
  · rw [List.length_reverse]
    exact (Nat.digits_length_le_iff (by omega) n).mpr h

end JOSKernel.General.Positional
