import Mathlib.Data.List.Induction
import Mathlib.Tactic.Common

/-!
# Logs of presses and releases

A latch follows the last press or release in a group of keys.  It is not the
question whether a key of the group is held, but agrees with it as long as no
two keys of the group are held together.
-/

namespace JOSKernel.General.PressLog

/-- A press of a key, or its release. -/
structure Press (K : Type) where
  key : K
  down : Bool

variable {K : Type}

/-- Whether the last entry for a key of the group is a press. -/
def latest (group : K → Bool) (log : List (Press K)) : Bool :=
  log.foldl (fun on e => if group e.key then e.down else on) false

@[simp] theorem latest_nil (group : K → Bool) : latest group [] = false := rfl

@[simp] theorem latest_append_one (group : K → Bool) (log : List (Press K)) (e : Press K) :
    latest group (log ++ [e]) = if group e.key then e.down else latest group log := by
  simp [latest]

variable [DecidableEq K]

/-- The key is down. -/
def held (key : K) (log : List (Press K)) : Bool := latest (fun k => k == key) log

/-- How often a key has been pressed. -/
def presses (key : K) (log : List (Press K)) : Nat :=
  log.countP fun e => e.down && e.key == key

theorem presses_append_one (key : K) (log : List (Press K)) (e : Press K) :
    presses key (log ++ [e]) =
      presses key log + if e.down && e.key == key then 1 else 0 := by
  simp [presses, List.countP_append, List.countP_singleton]

theorem held_append_same (log : List (Press K)) (e : Press K) :
    held e.key (log ++ [e]) = e.down := by
  simp [held]

theorem held_append_other {key : K} {e : Press K} (h : e.key ≠ key) (log : List (Press K)) :
    held key (log ++ [e]) = held key log := by
  simp [held, h]

/-- After a press in the group the pressed key is held. -/
theorem held_of_latest {group : K → Bool} {log : List (Press K)} (h : latest group log = true) :
    ∃ key, group key = true ∧ held key log = true := by
  induction log using List.reverseRecOn with
  | nil => cases h
  | append_singleton log e ih =>
      rw [latest_append_one] at h
      by_cases hgroup : group e.key = true
      · rw [if_pos hgroup] at h
        exact ⟨e.key, hgroup, by rw [held_append_same, h]⟩
      · rw [if_neg hgroup] at h
        obtain ⟨key, hkey, hheld⟩ := ih h
        have hne : e.key ≠ key := by
          rintro rfl
          exact hgroup hkey
        exact ⟨key, hkey, by rw [held_append_other hne, hheld]⟩

/-- Only a key that is held is released. -/
def Paired (log : List (Press K)) : Prop :=
  ∀ before e, before ++ [e] <+: log → e.down = false → held e.key before = true

/-- No two keys of the group are held together. -/
def Apart (group : K → Bool) (log : List (Press K)) : Prop :=
  ∀ before, before <+: log → ∀ key key', group key = true → group key' = true →
    held key before = true → held key' before = true → key = key'

theorem paired_nil : Paired ([] : List (Press K)) := by
  intro before e h
  exact absurd (List.prefix_nil.mp h) (by simp)

theorem paired_append_one (log : List (Press K)) (e : Press K) :
    Paired (log ++ [e]) ↔ Paired log ∧ (e.down = false → held e.key log = true) := by
  constructor
  · intro h
    have hinit : log <+: log ++ [e] := List.prefix_append log [e]
    exact ⟨fun before e' hbefore => h before e' (hbefore.trans hinit), h log e (List.prefix_refl _)⟩
  · rintro ⟨hlog, he⟩ before e' hbefore hdown
    rcases List.prefix_concat_iff.mp hbefore with hwhole | hinit
    · obtain ⟨rfl, hlast⟩ := List.append_inj' hwhole rfl
      cases hlast
      exact he hdown
    · exact hlog before e' hinit hdown

theorem apart_nil (group : K → Bool) : Apart group [] := by
  intro before h key _ _ _ hheld
  rw [List.prefix_nil.mp h] at hheld
  cases hheld

/-- A press in the group finds no other key of it held. -/
theorem apart_append_one (group : K → Bool) (log : List (Press K)) (e : Press K) :
    Apart group (log ++ [e]) ↔ Apart group log ∧
      (group e.key = true → e.down = true →
        ∀ key, group key = true → held key log = true → key = e.key) := by
  constructor
  · intro h
    refine ⟨fun before hbefore => h before (hbefore.trans (List.prefix_append log [e])), ?_⟩
    intro hgroup hdown key hkey hheld
    by_contra hother
    have hstill : held key (log ++ [e]) = true := by
      rw [held_append_other (Ne.symm hother), hheld]
    have hpressed : held e.key (log ++ [e]) = true := by rw [held_append_same, hdown]
    exact hother (h _ (List.prefix_refl _) key e.key hkey hgroup hstill hpressed)
  · rintro ⟨hlog, he⟩ before hbefore key key' hkey hkey' hheld hheld'
    rcases List.prefix_concat_iff.mp hbefore with rfl | hinit
    · by_cases hsame : e.key = key
      · by_cases hsame' : e.key = key'
        · exact hsame.symm.trans hsame'
        · subst hsame
          rw [held_append_same] at hheld
          rw [held_append_other hsame'] at hheld'
          exact (he hkey hheld key' hkey' hheld').symm
      · rw [held_append_other hsame] at hheld
        by_cases hsame' : e.key = key'
        · subst hsame'
          rw [held_append_same] at hheld'
          exact he hkey' hheld' key hkey hheld
        · rw [held_append_other hsame'] at hheld'
          exact hlog log (List.prefix_refl _) key key' hkey hkey' hheld hheld'
    · exact hlog before hinit key key' hkey hkey' hheld hheld'

/-- With one key of the group at a time the latch tells whether one is held. -/
theorem latest_iff_held {group : K → Bool} {log : List (Press K)} (hpaired : Paired log)
    (hapart : Apart group log) :
    latest group log = true ↔ ∃ key, group key = true ∧ held key log = true := by
  induction log using List.reverseRecOn with
  | nil => simp [held]
  | append_singleton log e ih =>
      obtain ⟨hpaired, hrelease⟩ := (paired_append_one log e).mp hpaired
      obtain ⟨hapart, _⟩ := (apart_append_one group log e).mp hapart
      have hrest := ih hpaired hapart
      constructor
      · exact held_of_latest
      · rintro ⟨key, hkey, hheld⟩
        rw [latest_append_one]
        by_cases hsame : e.key = key
        · rw [hsame, if_pos hkey, ← hheld, ← hsame, held_append_same]
        · rw [held_append_other hsame] at hheld
          by_cases hgroup : group e.key = true
          · rw [if_pos hgroup]
            cases hdown : e.down with
            | true => rfl
            | false =>
                have hreleased := hrelease hdown
                exact absurd (hapart log (List.prefix_refl _) _ _ hgroup hkey hreleased hheld) hsame
          · rw [if_neg hgroup]
            exact hrest.mpr ⟨key, hkey, hheld⟩

end JOSKernel.General.PressLog
