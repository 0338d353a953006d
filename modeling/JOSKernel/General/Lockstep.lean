import Mathlib.Tactic.Common

/-!
# Computations in lock step

Two partial computations are in lock step when both fail or both succeed with
related results.  The rules below follow the shape of monadic code, so that a
relation between two accumulators is carried through it once and for all.
-/

namespace JOSKernel.General.Lockstep

variable {α β γ δ : Type} {R : α → β → Prop} {S : γ → δ → Prop}

/-- Related results are passed on to continuations in lock step. -/
theorem bind_rel {x : Option α} {y : Option β} {f : α → Option γ} {g : β → Option δ}
    (hxy : Option.Rel R x y) (hfg : ∀ a b, R a b → Option.Rel S (f a) (g b)) :
    Option.Rel S (x >>= f) (y >>= g) := by
  cases hxy with
  | none => exact Option.Rel.none
  | some hab => exact hfg _ _ hab

/-- A step that both computations share never separates them. -/
theorem bind_same (x : Option α) {f : α → Option γ} {g : α → Option δ}
    (hfg : ∀ a, Option.Rel S (f a) (g a)) : Option.Rel S (x >>= f) (x >>= g) := by
  cases x with
  | none => exact Option.Rel.none
  | some a => exact hfg a

theorem map_rel {x : Option α} {y : Option β} {f : α → γ} {g : β → δ}
    (hxy : Option.Rel R x y) (hfg : ∀ a b, R a b → S (f a) (g b)) :
    Option.Rel S (x.map f) (y.map g) := by
  cases hxy with
  | none => exact Option.Rel.none
  | some hab => exact Option.Rel.some (hfg _ _ hab)

theorem rel_mono {T : α → β → Prop} {x : Option α} {y : Option β}
    (hxy : Option.Rel R x y) (himp : ∀ a b, R a b → T a b) : Option.Rel T x y := by
  cases hxy with
  | none => exact Option.Rel.none
  | some hab => exact Option.Rel.some (himp _ _ hab)

/-- When the relation determines the right-hand result, it tells when that side
has it. -/
theorem exists_rel_iff {x : Option α} {y : Option β} {f : α → β} (hxy : Option.Rel R x y)
    (hdetermines : ∀ a b, R a b → f a = b) (b : β) :
    (∃ a, x = some a ∧ R a b) ↔ y = some b := by
  cases hxy with
  | none => simp
  | some hab =>
      constructor
      · rintro ⟨a, ha, hb⟩
        cases ha
        exact congrArg some ((hdetermines _ _ hab).symm.trans (hdetermines _ _ hb))
      · intro hb
        cases hb
        exact ⟨_, rfl, hab⟩

theorem eq_of_rel {x y : Option α} (hxy : Option.Rel Eq x y) : x = y := by
  cases hxy with
  | none => rfl
  | some hab => exact congrArg some hab

/-- When the relation is a function of the right-hand result, lock step is an
equation. -/
theorem eq_map_of_rel {x : Option α} {y : Option β} {f : β → α}
    (hxy : Option.Rel (fun a b => a = f b) x y) : x = y.map f := by
  cases hxy with
  | none => rfl
  | some hab => exact congrArg some hab

end JOSKernel.General.Lockstep
