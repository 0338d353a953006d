import Mathlib.Data.Int.LeastGreatest
import Mathlib.Order.Lattice
import Mathlib.Tactic.Common

/-!
# Bisection over sparse keys

Only some indices of a table carry a key.  The region of a keyed index goes up
to the next one, and bisection looks for the region that contains a key.  The
rules below say what one halving of the open window preserves.
-/

namespace JOSKernel.General.SparseSearch

/-- The keys of a table. -/
abbrev Keys (K : Type) := Int → Option K

/-- The indices from one key until just before the next one. -/
structure Region {K : Type} (keys : Keys K) (lo hi first last : Int) : Prop where
  lo_le : lo ≤ first
  first_le : first ≤ last
  le_hi : last ≤ hi
  keyed : ∃ v, keys first = some v
  alone : ∀ i, first < i → i ≤ last → keys i = none
  next : last = hi ∨ ∃ v, keys (last + 1) = some v

/-- The index `m` carries the last key of `[l, mid]`. -/
structure LastIn {K : Type} (keys : Keys K) (l mid m : Int) (v : K) : Prop where
  l_le : l ≤ m
  le_mid : m ≤ mid
  keyed : keys m = some v
  last : ∀ i, m < i → i ≤ mid → keys i = none

theorem LastIn.unique {K : Type} {keys : Keys K} {l mid m m' : Int} {v v' : K} (h : LastIn keys l mid m v)
    (h' : LastIn keys l mid m' v') : m = m' ∧ v = v' := by
  have hm : m = m' := by
    rcases Int.lt_trichotomy m m' with hlt | heq | hgt
    · cases h'.keyed.symm.trans (h.last m' hlt h'.le_mid)
    · exact heq
    · cases h.keyed.symm.trans (h'.last m hgt h.le_mid)
  subst hm
  exact ⟨rfl, Option.some.inj (h.keyed.symm.trans h'.keyed)⟩

theorem LastIn.not_none {K : Type} {keys : Keys K} {l mid m : Int} {v : K} (h : LastIn keys l mid m v) :
    ¬ ∀ i, l ≤ i → i ≤ mid → keys i = none := by
  intro hnone
  cases h.keyed.symm.trans (hnone m h.l_le h.le_mid)

theorem none_or_lastIn {K : Type} (keys : Keys K) (l mid : Int) :
    (∀ i, l ≤ i → i ≤ mid → keys i = none) ∨ ∃ m v, LastIn keys l mid m v := by
  by_cases h : ∃ i, l ≤ i ∧ i ≤ mid ∧ ∃ v, keys i = some v
  · right
    obtain ⟨m, ⟨hl, hmid, v, hv⟩, hgreatest⟩ := Int.exists_greatest_of_bdd
      (P := fun i => l ≤ i ∧ i ≤ mid ∧ ∃ v, keys i = some v) ⟨mid, fun i hi => hi.2.1⟩ h
    refine ⟨m, v, hl, hmid, hv, ?_⟩
    intro i hi hie
    refine Option.eq_none_iff_forall_ne_some.mpr fun w hw => ?_
    have hle := hgreatest i ⟨by omega, hie, w, hw⟩
    omega
  · left
    intro i hi hie
    exact Option.eq_none_iff_forall_ne_some.mpr fun v hv => h ⟨i, hi, hie, v, hv⟩

/-- A range has no key at all, or is not empty and has one. -/
theorem keyed_or_none {K : Type} (keys : Keys K) (lo hi : Int) :
    (∀ i, lo ≤ i → i ≤ hi → keys i = none) ∨
      lo ≤ hi ∧ ∃ i v, lo ≤ i ∧ i ≤ hi ∧ keys i = some v := by
  rcases none_or_lastIn keys lo hi with hnone | ⟨m, v, hlo, hhi, hv, _⟩
  · exact .inl hnone
  · exact .inr ⟨Int.le_trans hlo hhi, m, v, hlo, hhi, hv⟩

/-- The range starts with `k` keyed indices and no more. -/
structure KeyRun {K : Type} (keys : Keys K) (first last : Int) (k : Nat) : Prop where
  inside : first + k ≤ last + 1
  keyed : ∀ i, first ≤ i → i < first + k → ∃ v, keys i = some v
  maximal : first + k ≤ last → keys (first + k) = none

theorem KeyRun.stop {K : Type} {keys : Keys K} {first last : Int} (hin : first ≤ last + 1)
    (h : first ≤ last → keys first = none) : KeyRun keys first last 0 where
  inside := by simpa using hin
  keyed := by
    intro i hi hlt
    simp at hlt
    omega
  maximal := by simpa using h

theorem KeyRun.cons {K : Type} {keys : Keys K} {first last : Int} {k : Nat} {v : K}
    (hv : keys first = some v) (h : KeyRun keys (first + 1) last k) :
    KeyRun keys first last (k + 1) := by
  have hend : first + ((k + 1 : Nat) : Int) = first + 1 + k := by omega
  refine ⟨by rw [hend]; exact h.inside, ?_, by rw [hend]; exact h.maximal⟩
  intro i hi hlt
  by_cases hfirst : i = first
  · exact ⟨v, hfirst ▸ hv⟩
  · exact h.keyed i (by omega) (by omega)

/-- The length of the run is settled by the keys. -/
theorem KeyRun.unique {K : Type} {keys : Keys K} {first last : Int} {k k' : Nat}
    (h : KeyRun keys first last k) (h' : KeyRun keys first last k') : k = k' := by
  have hle : ∀ {a b : Nat}, KeyRun keys first last a → KeyRun keys first last b → a ≤ b := by
    intro a b ha hb
    by_contra hlt
    have hin := ha.inside
    obtain ⟨v, hv⟩ := ha.keyed (first + b) (by omega) (by omega)
    cases hv.symm.trans (hb.maximal (by omega))
  exact Nat.le_antisymm (hle h h') (hle h' h)

/-- Where there is no key below `l` and none from there up to `mid`, there is
none up to `mid`. -/
theorem none_through {K : Type} {keys : Keys K} {P : Int → Prop} {l mid : Int}
    (hbelow : ∀ i, P i → i < l → keys i = none) (hnone : ∀ i, l ≤ i → i ≤ mid → keys i = none)
    {i : Int} (hi : P i) (hlt : i < mid + 1) : keys i = none := by
  by_cases hl : i < l
  · exact hbelow i hi hl
  · exact hnone i (Int.not_lt.mp hl) (Int.lt_add_one_iff.mp hlt)

variable {K : Type} [LinearOrder K]

/-- The keys do not decrease. -/
def Ordered (keys : Keys K) (lo hi : Int) : Prop :=
  ∀ i j, lo ≤ i → i ≤ j → j ≤ hi → ∀ v w, keys i = some v → keys j = some w → v ≤ w

/-- The region of the last key that is not above `k`. -/
structure Contains (keys : Keys K) (lo hi : Int) (k : K) (first last : Int) : Prop
    extends Region keys lo hi first last where
  at_most : ∀ v, keys first = some v → v ≤ k
  greatest : ∀ i, first < i → i ≤ hi → ∀ v, keys i = some v → k < v

namespace Contains

variable {keys : Keys K} {lo hi first last : Int} {k : K}

theorem first_le_first {first' last' : Int} (h : Contains keys lo hi k first last)
    (h' : Contains keys lo hi k first' last') : first' ≤ first := by
  by_contra hlt
  obtain ⟨v, hv⟩ := h'.keyed
  have habove := h.greatest first' (Int.not_le.mp hlt) (Int.le_trans h'.first_le h'.le_hi) v hv
  exact not_lt_of_ge (h'.at_most v hv) habove

theorem last_le_last {last' : Int} (h : Contains keys lo hi k first last)
    (h' : Contains keys lo hi k first last') : last' ≤ last := by
  by_contra hlt
  rcases h.next with hend | ⟨v, hv⟩
  · exact hlt (hend ▸ h'.le_hi)
  · have hfirst := h.first_le
    have hnone := h'.alone (last + 1) (by omega) (by omega)
    rw [hv] at hnone
    cases hnone

/-- At most one region contains a key. -/
theorem unique {first' last' : Int} (h : Contains keys lo hi k first last)
    (h' : Contains keys lo hi k first' last') : first = first' ∧ last = last' := by
  have hfirst : first = first' := Int.le_antisymm (h'.first_le_first h) (h.first_le_first h')
  subst hfirst
  exact ⟨rfl, Int.le_antisymm (h'.last_le_last h) (h.last_le_last h')⟩

end Contains

/-- A key that is not above `k` is contained in a region. -/
theorem exists_contains {keys : Keys K} {lo hi : Int} {k : K}
    (h : ∃ i v, lo ≤ i ∧ i ≤ hi ∧ keys i = some v ∧ v ≤ k) :
    ∃ first last, Contains keys lo hi k first last := by
  obtain ⟨first, ⟨hlo, hhi, w, hw, hle⟩, hgreatest⟩ := Int.exists_greatest_of_bdd
    (P := fun i => lo ≤ i ∧ i ≤ hi ∧ ∃ v, keys i = some v ∧ v ≤ k) ⟨hi, fun i hi => hi.2.1⟩
    (by obtain ⟨i, v, hi, hie, hkey⟩ := h; exact ⟨i, hi, hie, v, hkey⟩)
  have habove : ∀ i, first < i → i ≤ hi → ∀ v, keys i = some v → k < v := by
    intro i hi hie v hv
    by_contra hnot
    have hle := hgreatest i ⟨by omega, hie, v, hv, le_of_not_gt hnot⟩
    omega
  have hatmost : ∀ v, keys first = some v → v ≤ k := by
    intro v hv
    cases hw.symm.trans hv
    exact hle
  by_cases hnext : ∃ i, first < i ∧ i ≤ hi ∧ ∃ v, keys i = some v
  · obtain ⟨j, ⟨hj, hje, hkey⟩, hleast⟩ := Int.exists_least_of_bdd
      (P := fun i => first < i ∧ i ≤ hi ∧ ∃ v, keys i = some v) ⟨first, fun i hi => by omega⟩ hnext
    refine ⟨first, j - 1, ⟨hlo, by omega, by omega, ⟨w, hw⟩, ?_, ?_⟩, hatmost, habove⟩
    · intro i hi hie
      refine Option.eq_none_iff_forall_ne_some.mpr fun v hv => ?_
      have hle := hleast i ⟨hi, by omega, v, hv⟩
      omega
    · right
      rw [Int.sub_add_cancel]
      exact hkey
  · refine ⟨first, hi, ⟨hlo, hhi, Int.le_refl hi, ⟨w, hw⟩, ?_, .inl rfl⟩, hatmost, habove⟩
    intro i hi hie
    exact Option.eq_none_iff_forall_ne_some.mpr fun v hv => hnext ⟨i, hi, hie, v, hv⟩

theorem Ordered.mono {keys : Keys K} {lo hi lo' hi' : Int} (h : Ordered keys lo hi)
    (hlo : lo ≤ lo') (hhi : hi' ≤ hi) : Ordered keys lo' hi' :=
  fun i j hi hij hj => h i j (Int.le_trans hlo hi) hij (Int.le_trans hj hhi)

/-! ## Halving -/

/-- Halving `[l, r]` for `k` first meets `k` at `m`, with `[m, r']` still open. -/
inductive Meets (keys : Keys K) (k : K) : Int → Int → Int → Int → Prop
  | skip {l r m r' : Int} (hopen : l ≤ r) (hnone : ∀ i, l ≤ i → i ≤ (l + r) / 2 → keys i = none)
      (hrest : Meets keys k ((l + r) / 2 + 1) r m r') : Meets keys k l r m r'
  | raise {l r m r' m₀ : Int} {v : K} (hopen : l ≤ r) (hlast : LastIn keys l ((l + r) / 2) m₀ v)
      (hlt : v < k) (hrest : Meets keys k ((l + r) / 2 + 1) r m r') : Meets keys k l r m r'
  | lower {l r m r' m₀ : Int} {v : K} (hopen : l ≤ r) (hlast : LastIn keys l ((l + r) / 2) m₀ v)
      (hlt : k < v) (hrest : Meets keys k l (m₀ - 1) m r') : Meets keys k l r m r'
  | here {l r m : Int} (hopen : l ≤ r) (hlast : LastIn keys l ((l + r) / 2) m k) :
      Meets keys k l r m r

/-- What has been met is in the table, inside the window. -/
theorem Meets.keyed {keys : Keys K} {k : K} {l r m r' : Int} (h : Meets keys k l r m r') :
    l ≤ m ∧ r' ≤ r ∧ m ≤ r ∧ keys m = some k := by
  induction h with
  | skip hopen hnone hrest ih => exact ⟨by omega, ih.2.1, ih.2.2⟩
  | raise hopen hlast hlt hrest ih => exact ⟨by omega, ih.2.1, ih.2.2⟩
  | lower hopen hlast hlt hrest ih =>
      have hmid := hlast.le_mid
      exact ⟨ih.1, by omega, by omega, ih.2.2.2⟩
  | here hopen hlast =>
      have hmid := hlast.le_mid
      exact ⟨hlast.l_le, Int.le_refl _, by omega, hlast.keyed⟩

/-- The window that stays open holds the key that has been met. -/
theorem Meets.le_last {keys : Keys K} {k : K} {l r m r' : Int} (h : Meets keys k l r m r') :
    m ≤ r' := by
  induction h with
  | here hopen hlast =>
      have hmid := hlast.le_mid
      omega
  | _ => assumption

/-- Halving meets every key of an ordered table. -/
theorem exists_meets {keys : Keys K} {k : K} {l r i : Int} (hordered : Ordered keys l r)
    (hl : l ≤ i) (hr : i ≤ r) (hkey : keys i = some k) : ∃ m r', Meets keys k l r m r' := by
  generalize hsize : (r + 1 - l).toNat = size
  induction size using Nat.strongRecOn generalizing l r with
  | ind size ih =>
      have hopen : l ≤ r := Int.le_trans hl hr
      rcases none_or_lastIn keys l ((l + r) / 2) with hnone | ⟨m₀, v, hlast⟩
      · have hi : (l + r) / 2 + 1 ≤ i := by
          by_contra hlow
          cases hkey.symm.trans (hnone i hl (by omega))
        obtain ⟨m, r', hmeets⟩ :=
          ih _ (by omega) (hordered.mono (by omega) (Int.le_refl r)) hi hr rfl
        exact ⟨m, r', .skip hopen hnone hmeets⟩
      · have hm₀ := hlast.l_le
        have hmid := hlast.le_mid
        rcases lt_trichotomy v k with hlt | rfl | hgt
        · have hi : (l + r) / 2 + 1 ≤ i := by
            by_contra hlow
            rcases Int.lt_or_le m₀ i with habove | hbelow
            · cases hkey.symm.trans (hlast.last i habove (by omega))
            · exact not_lt_of_ge (hordered i m₀ hl hbelow (by omega) k v hkey hlast.keyed) hlt
          obtain ⟨m, r', hmeets⟩ :=
            ih _ (by omega) (hordered.mono (by omega) (Int.le_refl r)) hi hr rfl
          exact ⟨m, r', .raise hopen hlast hlt hmeets⟩
        · exact ⟨m₀, r, .here hopen hlast⟩
        · have hi : i ≤ m₀ - 1 := by
            by_contra habove
            exact not_lt_of_ge
              (hordered m₀ i hm₀ (by omega) hr v k hlast.keyed hkey) hgt
          obtain ⟨m, r', hmeets⟩ :=
            ih _ (by omega) (hordered.mono (Int.le_refl l) (by omega)) hl hi rfl
          exact ⟨m, r', .lower hopen hlast hgt hmeets⟩

/-- Halving `[lo, r]` for `k` meets only keys above `k`, down to one at `lo`. -/
inductive Sinks (keys : Keys K) (k : K) (lo : Int) : Int → Prop
  | bottom {r : Int} {v : K} (hopen : lo ≤ r) (hlast : LastIn keys lo ((lo + r) / 2) lo v)
      (hlt : k < v) : Sinks keys k lo r
  | lower {r m : Int} {v : K} (hopen : lo ≤ r) (hlast : LastIn keys lo ((lo + r) / 2) m v)
      (hlt : k < v) (hrest : Sinks keys k lo (m - 1)) : Sinks keys k lo r

theorem Sinks.keyed {keys : Keys K} {k : K} {lo r : Int} (h : Sinks keys k lo r) :
    lo ≤ r ∧ ∃ v, keys lo = some v ∧ k < v := by
  induction h with
  | bottom hopen hlast hlt => exact ⟨hopen, _, hlast.keyed, hlt⟩
  | lower hopen hlast hlt hrest ih => exact ⟨hopen, ih.2⟩

/-- Above `k` halving sinks down to a keyed index. -/
theorem sinks_of_above {keys : Keys K} {k : K} {lo r : Int} (hopen : lo ≤ r)
    (hkey : ∃ v, keys lo = some v)
    (habove : ∀ i, lo ≤ i → i ≤ r → ∀ v, keys i = some v → k < v) : Sinks keys k lo r := by
  generalize hsize : (r + 1 - lo).toNat = size
  induction size using Nat.strongRecOn generalizing r with
  | ind size ih =>
      rcases none_or_lastIn keys lo ((lo + r) / 2) with hnone | ⟨m, v, hlast⟩
      · obtain ⟨v, hv⟩ := hkey
        cases hv.symm.trans (hnone lo (Int.le_refl lo) (by omega))
      · have hm := hlast.l_le
        have hmid := hlast.le_mid
        have hlt := habove m hm (by omega) v hlast.keyed
        by_cases hbottom : m = lo
        · subst hbottom
          exact .bottom hopen hlast hlt
        · have hrest := ih (m - 1 + 1 - lo).toNat (by omega) (r := m - 1) (by omega)
            (fun i hi hie => habove i hi (by omega)) rfl
          exact .lower hopen hlast hlt hrest

/-! ## The open window -/

/-- Bisecting `[lo, hi]` for `k` has come down to `[l, r]`, with `left` the last
key known not to be above `k`. -/
structure Window (keys : Keys K) (lo hi : Int) (k : K) (left l r : Int) : Prop where
  lo_le : lo ≤ l
  le_hi : r ≤ hi
  lo_le_left : lo ≤ left
  gap : ∀ i, left < i → i < l → keys i = none
  found : (left ≤ hi ∧ ∃ v, keys left = some v ∧ v ≤ k) ∨
    (left = lo ∧ ∀ i, lo ≤ i → i < l → keys i = none)
  above : ∀ i, r < i → i ≤ hi → ∀ v, keys i = some v → k < v
  edge : r = hi ∨ ∃ v, keys (r + 1) = some v

namespace Window

variable {keys : Keys K} {lo hi left l r : Int} {k : K}

theorem start (keys : Keys K) (lo hi : Int) (k : K) : Window keys lo hi k lo lo hi where
  lo_le := Int.le_refl lo
  le_hi := Int.le_refl hi
  lo_le_left := Int.le_refl lo
  gap := by
    intro i hlo hi
    omega
  found := .inr ⟨rfl, fun i hlo hi => by omega⟩
  above := by
    intro i hlo hi
    omega
  edge := .inl rfl

theorem skip {mid : Int} (h : Window keys lo hi k left l r) (hmid : l ≤ mid)
    (hnone : ∀ i, l ≤ i → i ≤ mid → keys i = none) : Window keys lo hi k left (mid + 1) r where
  lo_le := by
    have := h.lo_le
    omega
  le_hi := h.le_hi
  lo_le_left := h.lo_le_left
  gap := by
    intro i hleft hi
    exact none_through h.gap hnone hleft hi
  found := by
    refine h.found.imp_right fun hlo => ⟨hlo.1, ?_⟩
    intro i hi hle
    exact none_through hlo.2 hnone hi hle
  above := h.above
  edge := h.edge

theorem raise {mid m : Int} {v : K} (h : Window keys lo hi k left l r) (hmid : mid ≤ r)
    (hlast : LastIn keys l mid m v) (hle : v ≤ k) : Window keys lo hi k m (mid + 1) r where
  lo_le := by
    have := h.lo_le
    have := hlast.l_le
    have := hlast.le_mid
    omega
  le_hi := h.le_hi
  lo_le_left := Int.le_trans h.lo_le hlast.l_le
  gap := fun i hm hi => hlast.last i hm (by omega)
  found := .inl ⟨Int.le_trans hlast.le_mid (Int.le_trans hmid h.le_hi), v, hlast.keyed, hle⟩
  above := h.above
  edge := h.edge

/-- At a key that is equal, the window keeps the key itself. -/
theorem pin {mid m : Int} {v : K} (h : Window keys lo hi k left l r) (hmid : mid ≤ r)
    (hlast : LastIn keys l mid m v) (hle : v ≤ k) : Window keys lo hi k m m r where
  lo_le := Int.le_trans h.lo_le hlast.l_le
  le_hi := h.le_hi
  lo_le_left := Int.le_trans h.lo_le hlast.l_le
  gap := by
    intro i hm hi
    omega
  found := .inl ⟨Int.le_trans hlast.le_mid (Int.le_trans hmid h.le_hi), v, hlast.keyed, hle⟩
  above := h.above
  edge := h.edge

theorem lower {mid m : Int} {v : K} (h : Window keys lo hi k left l r)
    (hordered : Ordered keys lo hi) (hmid : mid ≤ r) (hlast : LastIn keys l mid m v)
    (hlt : k < v) : Window keys lo hi k left l (m - 1) where
  lo_le := h.lo_le
  le_hi := by
    have := hlast.le_mid
    have := h.le_hi
    omega
  lo_le_left := h.lo_le_left
  gap := h.gap
  found := h.found
  above := by
    intro i hm hi w hw
    by_cases hr : r < i
    · exact h.above i hr hi w hw
    · exact lt_of_lt_of_le hlt
        (hordered m i (Int.le_trans h.lo_le hlast.l_le) (by omega) hi v w hlast.keyed hw)
  edge := .inr ⟨v, by rw [Int.sub_add_cancel]; exact hlast.keyed⟩

/-- A closed window has found the region of `k`. -/
theorem contains (h : Window keys lo hi k left l r) (hclosed : r < l) {v : K}
    (hleft : left ≤ hi) (hv : keys left = some v) (hle : v ≤ k) :
    Contains keys lo hi k left r where
  lo_le := h.lo_le_left
  first_le := by
    by_contra hr
    exact not_lt_of_ge hle (h.above left (Int.not_le.mp hr) hleft v hv)
  le_hi := h.le_hi
  keyed := ⟨v, hv⟩
  alone := fun i hi hr => h.gap i hi (by omega)
  next := h.edge
  at_most := by
    intro w hw
    rw [hv] at hw
    cases hw
    exact hle
  greatest := by
    intro i hi hhi w hw
    by_cases hl : i < l
    · rw [h.gap i hi hl] at hw
      cases hw
    · exact h.above i (by omega) hhi w hw

end Window

end JOSKernel.General.SparseSearch
