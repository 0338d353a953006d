import Mathlib.Data.List.Lex
import Mathlib.Data.Int.Order.Basic
import Mathlib.Order.Lattice

/-!
# Three-way comparisons

A comparison routine answers by the sign of an integer.  Sequences compare by
their first difference, a proper prefix before the longer one.
-/

namespace JOSKernel.General.ThreeWay

/-- The sign of `z` tells how `a` and `b` are ordered. -/
structure Tells {α : Type} [LT α] (z : Int) (a b : α) : Prop where
  neg : z < 0 ↔ a < b
  zero : z = 0 ↔ a = b
  pos : 0 < z ↔ b < a

theorem tells_sub (x y : Nat) : Tells ((x : Int) - y) x y := by
  constructor <;> omega

section LinearOrder

variable {α : Type} [LinearOrder α] {a b c : α} {x y z : Int}

theorem tells_refl (a : α) : Tells 0 a a := by
  constructor <;> simp

theorem Tells.nonpos (h : Tells z a b) : z ≤ 0 ↔ a ≤ b := by
  rw [← not_lt, h.pos, not_lt]

/-- Two answers about the same pair have the same sign. -/
theorem Tells.sign_eq (h : Tells z a b) (h' : Tells y a b) : y.sign = z.sign := by
  rcases lt_trichotomy a b with hlt | heq | hgt
  · rw [Int.sign_eq_neg_one_of_neg (h.neg.mpr hlt), Int.sign_eq_neg_one_of_neg (h'.neg.mpr hlt)]
  · rw [h.zero.mpr heq, h'.zero.mpr heq]
  · rw [Int.sign_eq_one_of_pos (h.pos.mpr hgt), Int.sign_eq_one_of_pos (h'.pos.mpr hgt)]

theorem Tells.swap (h : Tells z a b) : Tells (-z) b a := by
  constructor
  · rw [Int.neg_neg_iff_pos, h.pos]
  · rw [Int.neg_eq_zero, h.zero, eq_comm]
  · rw [Int.neg_pos, h.neg]

/-- The answers order their arguments transitively. -/
theorem Tells.trans (hab : Tells z a b) (hbc : Tells y b c) (hac : Tells x a c)
    (hz : z ≤ 0) (hy : y ≤ 0) : x ≤ 0 :=
  hac.nonpos.mpr (le_trans (hab.nonpos.mp hz) (hbc.nonpos.mp hy))

/-! ## Sequences -/

/-- Past a common first element the rest decides. -/
theorem Tells.cons {as bs : List α} (h : Tells z as bs) (a : α) :
    Tells z (a :: as) (a :: bs) := by
  constructor
  · rw [h.neg, List.cons_lt_cons_self]
  · rw [h.zero, List.cons_inj_right]
  · rw [h.pos, List.cons_lt_cons_self]

/-- Different first elements decide. -/
theorem Tells.head (h : Tells z a b) (hne : a ≠ b) (as bs : List α) :
    Tells z (a :: as) (b :: bs) := by
  constructor
  · rw [h.neg, List.cons_lt_cons_iff]
    simp [hne]
  · rw [h.zero, List.cons.injEq]
    simp [hne]
  · rw [h.pos, List.cons_lt_cons_iff]
    simp [hne.symm]

theorem tells_nil_cons (hz : z < 0) (b : α) (bs : List α) : Tells z [] (b :: bs) := by
  constructor
  · simp [hz]
  · simp [hz.ne]
  · simp [hz.le]

theorem tells_cons_nil (hz : 0 < z) (a : α) (as : List α) : Tells z (a :: as) [] := by
  constructor
  · simp [hz.le]
  · simp [hz.ne']
  · simp [hz]

end LinearOrder

end JOSKernel.General.ThreeWay
