import Mathlib.Tactic.Common

/-!
# Interactions

An interaction takes its inputs one at a time, emits outputs at each of them
and may end there.  An implementation that keeps a relation to the state and to
what has been emitted follows the whole interaction.
-/

namespace JOSKernel.General.Interaction

/-- How an interaction stands: it waits for an input, or it has ended in front
of the rest of them. -/
inductive Status (σ ι : Type) where
  | waiting (s : σ)
  | ended (rest : List ι)

variable {σ ι ο : Type}

/-- What is emitted, and the next state unless the interaction ends. -/
abbrev Step (σ ι ο : Type) := σ → ι → List ο × Option σ

def run (step : Step σ ι ο) : σ → List ι → List ο × Status σ ι
  | s, [] => ([], .waiting s)
  | s, i :: is =>
      match step s i with
      | (out, none) => (out, .ended is)
      | (out, some s) => (out ++ (run step s is).1, (run step s is).2)

variable {step : Step σ ι ο}

@[simp] theorem run_nil (s : σ) : run step s [] = ([], .waiting s) := rfl

theorem run_next {s s' : σ} {i : ι} {out : List ο} (h : step s i = (out, some s')) (is : List ι) :
    run step s (i :: is) = (out ++ (run step s' is).1, (run step s' is).2) := by
  rw [run, h]

theorem run_ends {s : σ} {i : ι} {out : List ο} (h : step s i = (out, none)) (is : List ι) :
    run step s (i :: is) = (out, .ended is) := by
  rw [run, h]

/-- Further inputs go to the state that waits for them. -/
theorem run_append {s s' : σ} {is : List ι} {out : List ο} (h : run step s is = (out, .waiting s'))
    (is' : List ι) :
    run step s (is ++ is') = (out ++ (run step s' is').1, (run step s' is').2) := by
  induction is generalizing s out with
  | nil =>
      obtain ⟨rfl, hs⟩ := Prod.mk.inj h
      cases hs
      rfl
  | cons i is ih =>
      rcases hstep : step s i with ⟨first, next⟩
      cases next with
      | none =>
          rw [run_ends hstep] at h
          cases h
      | some t =>
          rw [run_next hstep, Prod.mk.injEq] at h
          rw [List.cons_append, run_next hstep, ih (Prod.ext rfl h.2), ← h.1, List.append_assoc]

/-- No state ends on any input, so the interaction always waits. -/
theorem run_waiting (hstep : ∀ s i, (step s i).2 ≠ none) (s : σ) (is : List ι) :
    ∃ s', (run step s is).2 = .waiting s' := by
  induction is generalizing s with
  | nil => exact ⟨s, rfl⟩
  | cons i is ih =>
      rcases hnext : step s i with ⟨out, next⟩
      cases next with
      | none =>
          have hne := hstep s i
          rw [hnext] at hne
          exact absurd rfl hne
      | some t =>
          rw [run_next hnext]
          exact ih t

/-! ## Implementations -/

section Implementation

variable {κ ρ : Type} {impl exit : κ → List ι → ρ}

/-- One input takes the implementation along: it goes on with the rest of the
inputs, or leaves them.  `R is s out k` relates its state `k` in front of the
inputs `is` to the state `s` and to the outputs so far. -/
structure Follows (step : Step σ ι ο) (impl exit : κ → List ι → ρ)
    (R : List ι → σ → List ο → κ → Prop) (E : List ο → κ → Prop) : Prop where
  goes : ∀ {i is s s' out more k}, R (i :: is) s out k → step s i = (more, some s') →
    ∃ k', R is s' (out ++ more) k' ∧ impl k (i :: is) = impl k' is
  ends : ∀ {i is s out more k}, R (i :: is) s out k → step s i = (more, none) →
    ∃ k', E (out ++ more) k' ∧ impl k (i :: is) = exit k' is

variable {R : List ι → σ → List ο → κ → Prop} {E : List ο → κ → Prop}

theorem Follows.waiting (h : Follows step impl exit R E) {is : List ι} {s s' : σ}
    {out more : List ο} {k : κ} (hstart : R is s out k)
    (hrun : run step s is = (more, .waiting s')) :
    ∃ k', R [] s' (out ++ more) k' ∧ impl k is = impl k' [] := by
  induction is generalizing s out more k with
  | nil =>
      obtain ⟨rfl, hs⟩ := Prod.mk.inj hrun
      cases hs
      exact ⟨k, by rwa [List.append_nil], rfl⟩
  | cons i is ih =>
      rcases hstep : step s i with ⟨first, next⟩
      cases next with
      | none =>
          rw [run_ends hstep] at hrun
          cases hrun
      | some t =>
          rw [run_next hstep, Prod.mk.injEq] at hrun
          obtain ⟨k₁, hk₁, hfirst⟩ := h.goes hstart hstep
          obtain ⟨k', hk', hrest⟩ := ih hk₁ (Prod.ext rfl hrun.2)
          refine ⟨k', ?_, hfirst.trans hrest⟩
          rw [← hrun.1, ← List.append_assoc]
          exact hk'

theorem Follows.ended (h : Follows step impl exit R E) {is rest : List ι} {s : σ}
    {out more : List ο} {k : κ} (hstart : R is s out k)
    (hrun : run step s is = (more, .ended rest)) :
    ∃ k', E (out ++ more) k' ∧ impl k is = exit k' rest := by
  induction is generalizing s out more k with
  | nil => cases hrun
  | cons i is ih =>
      rcases hstep : step s i with ⟨first, next⟩
      cases next with
      | none =>
          rw [run_ends hstep] at hrun
          obtain ⟨rfl, hrest⟩ := Prod.mk.inj hrun
          cases hrest
          exact h.ends hstart hstep
      | some t =>
          rw [run_next hstep, Prod.mk.injEq] at hrun
          obtain ⟨k₁, hk₁, hfirst⟩ := h.goes hstart hstep
          obtain ⟨k', hk', hrest⟩ := ih hk₁ (Prod.ext rfl hrun.2)
          refine ⟨k', ?_, hfirst.trans hrest⟩
          rw [← hrun.1, ← List.append_assoc]
          exact hk'

end Implementation

end JOSKernel.General.Interaction
