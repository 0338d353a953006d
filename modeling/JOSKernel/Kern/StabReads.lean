import JOSKernel.Kern.StabOverrun

/-!
# What the search reads, and where it can end

The search reads only stabs of its range, whatever the table holds.  The place
that it gives need not be one of them: it can lie just below the range.
-/

namespace JOSKernel.Kern.StabReads

open JOSKernel.General.MachineInt
open JOSKernel.General.SparseSearch
open JOSKernel.Kern.StabBinsearch
open JOSKernel.Kern.StabOverrun

/-! ## The guarded search -/

section

variable {stabs : List Stab} {type : Byte} {lo hi : Int}

theorem guarded_read {i : Int} (hlo : lo ≤ i) (hhi : i ≤ hi) :
    (Access.guarded stabs lo hi).read i = stabAt stabs i :=
  if_pos ⟨hlo, hhi⟩

theorem guarded_sum {l r : Int} (hlow : 0 ≤ l + r) (hhigh : l + r < 2147483648) :
    (Access.guarded stabs lo hi).sum l r = some (l + r) :=
  if_pos (int32_of_range (by omega) hhigh)

theorem seekBackBy_guarded (wanted : Stab → Bool) {l m : Int} (hl : lo ≤ l) (hm : m ≤ hi) :
    seekBackBy (.guarded stabs lo hi) wanted l m = seekBack stabs wanted l m := by
  rw [seekBack, seekBackBy, seekBackBy]
  generalize (m + 1 - l).toNat + 1 = fuel
  induction fuel generalizing m with
  | zero => rfl
  | succ fuel ih =>
      rw [seekLoopBy, seekLoopBy, free_read]
      by_cases hopen : m ≥ l
      · rw [if_pos hopen, if_pos hopen, guarded_read (Int.le_trans hl hopen) hm,
          ih (m := m - 1) (by omega)]
      · rw [if_neg hopen, if_neg hopen]

theorem searchStepBy_guarded {s : Search} (hlo : 0 ≤ lo) (hl : lo ≤ s.l) (hopen : s.l ≤ s.r)
    (hr : s.r ≤ hi) (hhi : hi < stabs.length) (hfits : hi < 1073741824) :
    searchStepBy (.guarded stabs lo hi) type s = searchStep stabs type s := by
  have hmid : (s.l + s.r).tdiv 2 = (s.l + s.r) / 2 := Int.tdiv_eq_ediv_of_nonneg (by omega)
  have hsum : (Access.guarded stabs lo hi).sum s.l s.r = some (s.l + s.r) :=
    guarded_sum (by omega) (by omega)
  have hseek : seekBackBy (.guarded stabs lo hi) (ofType type) s.l ((s.l + s.r) / 2) =
      seekBack stabs (ofType type) s.l ((s.l + s.r) / 2) :=
    seekBackBy_guarded (ofType type) hl (by omega)
  simp only [searchStep, searchStepBy, free_sum, seekBackBy_free, hsum, hmid, hseek,
    Option.bind_eq_bind, Option.bind_some]
  rcases seekBack_spec stabs (ofType type) (show 0 ≤ s.l by omega)
    (show (s.l + s.r) / 2 < stabs.length by omega) with ⟨hnone, _⟩ | ⟨m, stab, hfound, _, _, hm⟩
  · rw [hnone, Option.bind_some, Option.bind_some, if_pos (by omega), if_pos (by omega)]
  · have hml := hm.l_le
    have hmmid := hm.le_mid
    rw [hfound, Option.bind_some, Option.bind_some, if_neg (by omega), if_neg (by omega),
      guarded_read (by omega) (by omega), free_read]

theorem searchLoopBy_guarded (hlo : 0 ≤ lo) (hhi : hi < stabs.length) (hfits : hi < 1073741824)
    (fuel : Nat) {s : Search} (hl : lo ≤ s.l) (hr : s.r ≤ hi) :
    searchLoopBy (.guarded stabs lo hi) type fuel s = searchLoop stabs type fuel s := by
  induction fuel generalizing s with
  | zero => rfl
  | succ fuel ih =>
      rw [searchLoopBy, searchLoop_succ]
      by_cases hopen : s.l ≤ s.r
      · obtain ⟨s', hrun, hstep⟩ : ∃ s', searchStep stabs type s = some s' ∧
            Step (keysOf stabs type) s s' :=
          searchStep_step type (Int.le_trans hlo hl) hopen (by omega)
        have hinside := hstep.inside hopen
        rw [if_pos hopen, if_pos hopen, searchStepBy_guarded hlo hl hopen hr hhi hfits, hrun,
          Option.bind_some, Option.bind_some, ih (by omega) (by omega)]
      · rw [if_neg hopen, if_neg hopen]

/-- The bytes of one `struct Stab`. -/
def sizeofStab : Nat := 12

/-- The search ends, reads no stab outside its range, and adds no bounds that
overflow: guarded against both it gives the same. -/
theorem stabBinsearch_guarded (hlo : 0 ≤ lo) (hhi : hi < stabs.length)
    (hfits : sizeofStab * stabs.length ≤ 4294967296) (type : Byte) (addr : Word) :
    ∃ region, stabBinsearchBy (.guarded stabs lo hi) lo hi type addr = some region ∧
      stabBinsearch stabs lo hi type addr = some region := by
  have hsmall : hi < 1073741824 := by
    simp only [sizeofStab] at hfits
    omega
  rcases Int.lt_or_le hi lo with hempty | hle
  · refine ⟨(lo, lo - 1), ?_, stabBinsearch_empty hempty addr⟩
    simp [stabBinsearchBy, searchLoopBy, Int.not_le.mpr hempty]
  · obtain ⟨s, hrun, hs, hclosed⟩ := searchLoop_run
      (fun _ _ hs hopen hstep => hs.step hopen hstep) (Inside.start (keysOf stabs type) hle addr)
      hlo hhi (measure_start _ _ _ _)
    have hleft := hs.lo_le_left
    have hrhi := hs.le_hi
    have hright := hs.right_eq
    have hguarded : searchLoopBy (.guarded stabs lo hi) type (2 * (hi + 1 - lo).toNat + 2)
        ⟨lo, hi, lo, hi, false, addr⟩ = some s := by
      rw [← hrun]
      exact searchLoopBy_guarded hlo hhi hsmall _ (Int.le_refl lo) (Int.le_refl hi)
    have hseek : seekBackBy (.guarded stabs lo hi) (ofType type) (s.left + 1) s.right =
        seekBack stabs (ofType type) (s.left + 1) s.right :=
      seekBackBy_guarded (ofType type) (by omega) (by omega)
    cases hany : s.anyMatches with
    | false =>
        refine ⟨(s.left, s.left - 1), ?_, ?_⟩
        · simp [stabBinsearchBy, hguarded, hany]
        · simp [stabBinsearch, stabBinsearchBy, hrun, hany]
    | true =>
        obtain ⟨a, hfound, _⟩ := stabBinsearch_matched hrun hany (by omega) (by omega)
        refine ⟨(a, s.right), ?_, hfound⟩
        rw [← hfound]
        simp only [stabBinsearch, stabBinsearchBy, searchLoopBy_free, seekBackBy_free, hguarded,
          hrun, hseek, Option.bind_eq_bind, Option.bind_some]

/-- At the last address too. -/
theorem stabBinsearch_guarded_oneApart :
    ∃ region, stabBinsearchBy (.guarded oneApart 0 1) 0 1 0x24 0xFFFFFFFF = some region ∧
      stabBinsearch oneApart 0 1 0x24 0xFFFFFFFF = some region :=
  stabBinsearch_guarded (by decide) (by decide) (by decide) 0x24 0xFFFFFFFF

/-! ## Below the range -/

/-- A search that sinks ends just below its range. -/
theorem stabBinsearch_sunk {addr : Word} (hlo : 0 ≤ lo) (hhi : hi < stabs.length)
    (hsunk : Sunk (keysOf stabs type) addr.toNat lo hi) :
    stabBinsearch stabs lo hi type addr = some (lo - 1, lo - 1) := by
  rcases hsunk with hsinks | ⟨hend, r', hmeets, hsinks⟩
  · have hopen := hsinks.keyed.1
    have hstart : Sinking (keysOf stabs type) addr.toNat lo ⟨lo, hi, lo, hi, false, addr⟩ :=
      ⟨rfl, rfl, rfl, rfl, .inl hsinks⟩
    obtain ⟨s, hrun, hs, hclosed⟩ := searchLoop_run (fun _ _ => Sinking.step) hstart hlo hhi
      (measure_start _ _ _ _)
    exact hs.result hlo (by omega) hrun hclosed
  · exact stabBinsearch_sinks hlo hhi hend hmeets hsinks

/-- Any other search ends inside its range or behind it. -/
theorem stabBinsearch_kept {addr : Word} {left right : Int} (hlo : 0 ≤ lo) (hle : lo ≤ hi)
    (hhi : hi < stabs.length) (hkept : ¬ Sunk (keysOf stabs type) addr.toNat lo hi)
    (hfound : stabBinsearch stabs lo hi type addr = some (left, right)) : lo ≤ left := by
  obtain ⟨s, hrun, ⟨hs, hin⟩, hclosed⟩ := searchLoop_run
    (I := fun s => Kept (keysOf stabs type) lo s ∧ Inside (keysOf stabs type) lo hi s)
    (fun _ _ hs hopen hstep => ⟨hs.1.step hopen hstep, hs.2.step hopen hstep⟩)
    ⟨⟨Int.le_refl lo, hle, fun _ => hkept⟩, Inside.start (keysOf stabs type) hle addr⟩ hlo hhi
    (measure_start _ _ _ _)
  have hleft := hin.lo_le_left
  have hright := hin.right_eq
  have hr := hs.le_r
  have hrhi := hin.le_hi
  cases hany : s.anyMatches with
  | false =>
      cases (stabBinsearch_unmatched hrun hany).symm.trans hfound
      exact hleft
  | true =>
      obtain ⟨a, hresult, ha, hplace⟩ := stabBinsearch_matched hrun hany (by omega) (by omega)
      cases hresult.symm.trans hfound
      omega

/-- Behind its match a search that does not sink on it stays there. -/
theorem stabBinsearch_behind {addr : Word} {m r' : Int} (hlo : 0 ≤ lo) (hhi : hi < stabs.length)
    (hmeets : Meets (keysOf stabs type) addr.toNat lo hi m r')
    (hkept : ¬ (addr.toNat + 1 = 4294967296 ∧ Sinks (keysOf stabs type) 0 m r')) :
    ∃ a b, stabBinsearch stabs lo hi type addr = some (a, b) ∧ m ≤ a ∧ a ≤ b ∧ b ≤ hi := by
  have hm := hmeets.keyed
  have hbehind : ¬ Sunk (keysOf stabs type) (addr + 1).toNat m r' := by
    rcases Nat.lt_or_ge (addr.toNat + 1) 4294967296 with hroom | hend
    · rw [next_toNat hroom]
      exact not_sunk_next hm.2.2.2
    · have hend : addr.toNat + 1 = 4294967296 := by
        have hlt := addr.isLt
        omega
      rw [next_zero hend]
      rintro (hsinks | ⟨hzero, _⟩)
      · exact hkept ⟨hend, hsinks⟩
      · omega
  obtain ⟨s, hrun, hs, hclosed⟩ := searchLoop_pending hlo hhi hmeets
    (fun s h => h.past hmeets.le_last hm.2.1 hbehind) (fun _ _ => Past.step)
  exact hs.result (by omega) hhi hrun

/-- A search that does not match the address has only entries below its left end. -/
structure Unmet (keys : Keys Nat) (lo hi : Int) (s : Search) : Prop where
  unmet : ¬ ∃ m r', Meets keys s.addr.toNat s.l s.r m r'
  lo_le : lo ≤ s.l
  le_hi : s.r ≤ hi
  right_eq : s.right = s.r
  lo_le_left : lo ≤ s.left
  left : s.left = lo ∨ (s.left < s.l ∧ s.left ≤ s.r ∧ ∃ v, keys s.left = some v)

theorem Unmet.step {keys : Keys Nat} {s s' : Search} (h : Unmet keys lo hi s)
    (hopen : s.l ≤ s.r) (hstep : Step keys s s') : Unmet keys lo hi s' := by
  have hl := h.lo_le
  have hr := h.le_hi
  cases hstep with
  | skip hnone =>
      refine ⟨?_, by simp only; omega, hr, h.right_eq, h.lo_le_left, ?_⟩
      · rintro ⟨m, r', hmeets⟩
        exact h.unmet ⟨m, r', .skip hopen hnone hmeets⟩
      · exact h.left.imp_right fun hleft => ⟨by simp only; omega, hleft.2⟩
  | raise hlast hlt =>
      have hm := hlast.l_le
      have hmid := hlast.le_mid
      refine ⟨?_, by simp only; omega, hr, h.right_eq, Int.le_trans hl hm, ?_⟩
      · rintro ⟨m, r', hmeets⟩
        exact h.unmet ⟨m, r', .raise hopen hlast hlt hmeets⟩
      · exact .inr ⟨by simp only; omega, by simp only; omega, _, hlast.keyed⟩
  | lower hlast hlt =>
      have hm := hlast.l_le
      have hmid := hlast.le_mid
      refine ⟨?_, hl, by simp only; omega, rfl, h.lo_le_left, ?_⟩
      · rintro ⟨m, r', hmeets⟩
        exact h.unmet ⟨m, r', .lower hopen hlast hlt hmeets⟩
      · exact h.left.imp_right fun hleft => ⟨hleft.1, by simp only; omega, hleft.2.2⟩
  | exact hlast => exact absurd ⟨_, _, .here hopen hlast⟩ h.unmet

/-- A place behind the lower end with no entry at or before it is where the
search has sunk below a match at the last address. -/
theorem stabBinsearch_unkeyed {addr : Word} {a b : Int} (hlo : 0 ≤ lo) (hhi : hi < stabs.length)
    (hfound : stabBinsearch stabs lo hi type addr = some (a, b)) (ha : lo < a) (hab : a ≤ b)
    (hnone : ∀ i, lo ≤ i → i ≤ a → keysOf stabs type i = none) :
    addr.toNat + 1 = 4294967296 ∧ b = a ∧
      ∃ r', Meets (keysOf stabs type) addr.toNat lo hi (a + 1) r' ∧
        Sinks (keysOf stabs type) 0 (a + 1) r' := by
  by_cases hmet : ∃ m r', Meets (keysOf stabs type) addr.toNat lo hi m r'
  · obtain ⟨m, r', hmeets⟩ := hmet
    have hm := hmeets.keyed
    have habove : a < m := by
      by_contra hle
      cases hm.2.2.2.symm.trans (hnone m hm.1 (Int.not_lt.mp hle))
    by_cases hsink : addr.toNat + 1 = 4294967296 ∧ Sinks (keysOf stabs type) 0 m r'
    · obtain ⟨hend, hsinks⟩ := hsink
      have hresult := stabBinsearch_sinks hlo hhi hend hmeets hsinks
      cases hresult.symm.trans hfound
      rw [Int.sub_add_cancel]
      exact ⟨hend, rfl, r', hmeets, hsinks⟩
    · obtain ⟨a', b', hresult, hle, _⟩ := stabBinsearch_behind hlo hhi hmeets hsink
      cases hresult.symm.trans hfound
      omega
  · have hstart : Unmet (keysOf stabs type) lo hi ⟨lo, hi, lo, hi, false, addr⟩ :=
      ⟨hmet, Int.le_refl lo, Int.le_refl hi, rfl, Int.le_refl lo, .inl rfl⟩
    obtain ⟨s, hrun, hs, hclosed⟩ := searchLoop_run (fun _ _ => Unmet.step) hstart hlo hhi
      (measure_start _ _ _ _)
    have hrhi := hs.le_hi
    have hright := hs.right_eq
    have hunkeyed : ∀ v, keysOf stabs type a ≠ some v := by
      intro v hv
      cases hv.symm.trans (hnone a (Int.le_of_lt ha) (Int.le_refl a))
    cases hany : s.anyMatches with
    | false =>
        cases (stabBinsearch_unmatched hrun hany).symm.trans hfound
        omega
    | true =>
        have hleft := hs.lo_le_left
        obtain ⟨a', hresult, _, hplace⟩ :=
          stabBinsearch_matched hrun hany (by omega) (by omega)
        cases hresult.symm.trans hfound
        rcases hplace with hmin | ⟨_, v, hv⟩
        · rcases hs.left with hfirst | ⟨_, hle, v, hv⟩
          · omega
          · have heq : a = s.left := by omega
            exact absurd (heq ▸ hv) (hunkeyed v)
        · exact absurd hv (hunkeyed v)

end

end JOSKernel.Kern.StabReads
