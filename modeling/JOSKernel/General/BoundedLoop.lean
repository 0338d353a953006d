import Mathlib.Logic.Function.Iterate

/-!
# Loops with bounded rounds

A `while` loop that may run forever is followed for a bounded number of rounds.
Enough rounds give its result; a loop that keeps an invariant under which it
goes on has no result for any bound.
-/

namespace JOSKernel.General.BoundedLoop

variable {σ τ : Type} {cond : σ → Bool} {body : σ → σ}

def whileLoop (cond : σ → Bool) (body : σ → σ) : Nat → σ → Option σ
  | 0, _ => none
  | fuel + 1, s => if cond s then whileLoop cond body fuel (body s) else some s

/-- The loop ends where its condition first fails. -/
theorem whileLoop_ends {n fuel : Nat} {s : σ} (hrun : ∀ i < n, cond (body^[i] s) = true)
    (hend : cond (body^[n] s) = false) (hfuel : n < fuel) :
    whileLoop cond body fuel s = some (body^[n] s) := by
  induction n generalizing fuel s with
  | zero =>
      obtain ⟨fuel, rfl⟩ := Nat.exists_eq_add_of_le' hfuel
      rw [Function.iterate_zero_apply] at hend ⊢
      rw [whileLoop, hend]
      rfl
  | succ n ih =>
      obtain ⟨fuel, rfl⟩ := Nat.exists_eq_add_of_le' (Nat.le_trans (Nat.succ_pos _) hfuel)
      have hfirst : cond s = true := hrun 0 (Nat.succ_pos n)
      rw [whileLoop, hfirst, if_pos rfl]
      exact ih (fun i hi => hrun (i + 1) (Nat.succ_lt_succ hi)) hend (Nat.succ_lt_succ_iff.mp hfuel)

/-- Under such an invariant the loop does not end. -/
theorem whileLoop_endless {I : σ → Prop} (hgo : ∀ s, I s → cond s = true)
    (hkeep : ∀ s, I s → I (body s)) {s : σ} (hs : I s) (fuel : Nat) :
    whileLoop cond body fuel s = none := by
  induction fuel generalizing s with
  | zero => rfl
  | succ fuel ih =>
      rw [whileLoop, hgo s hs, if_pos rfl]
      exact ih (hkeep s hs)

/-- Two loops whose rounds correspond have corresponding results. -/
theorem whileLoop_map {cond' : τ → Bool} {body' : τ → τ} {f : σ → τ}
    (hcond : ∀ s, cond' (f s) = cond s) (hbody : ∀ s, body' (f s) = f (body s)) (fuel : Nat)
    (s : σ) : whileLoop cond' body' fuel (f s) = (whileLoop cond body fuel s).map f := by
  induction fuel generalizing s with
  | zero => rfl
  | succ fuel ih =>
      rw [whileLoop, whileLoop, hcond, hbody, ih]
      split
      · rfl
      · rfl

end JOSKernel.General.BoundedLoop
