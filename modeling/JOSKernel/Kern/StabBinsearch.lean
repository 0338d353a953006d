import JOSKernel.General.MachineInt
import JOSKernel.General.SparseSearch
import Mathlib.Data.Nat.Basic

/-!
# Searching the stab table (`stab_binsearch` in `kern/kdebug.c`)

The entries of one type are the keyed indices of the table.  The search lowers
and raises the open window like plain bisection, but it also moves its key: an
exact match goes on with the address one above.  It finds the region that it
should when no entry lies there.
-/

namespace JOSKernel.Kern.StabBinsearch

open JOSKernel.General.MachineInt
open JOSKernel.General.SparseSearch

structure Stab where
  n_strx : Word
  n_type : Byte
  n_desc : BitVec 16
  n_value : Word

/-- The read `stabs[i]`. -/
def stabAt (stabs : List Stab) (i : Int) : Option Stab :=
  if 0 ≤ i then stabs[i.toNat]? else none

/-- How the search reads a stab and adds its two bounds. -/
structure Access where
  read : Int → Option Stab
  sum : Int → Int → Option Int

/-- The whole table, and integers without bounds. -/
def Access.free (stabs : List Stab) : Access where
  read := stabAt stabs
  sum l r := some (l + r)

/-- Nothing but the stabs `lo` to `hi`, and sums that an `int` can hold. -/
def Access.guarded (stabs : List Stab) (lo hi : Int) : Access where
  read i := if lo ≤ i ∧ i ≤ hi then stabAt stabs i else none
  sum l r := if int32 (l + r) = l + r then some (l + r) else none

/-- The loops that look downwards for an entry and stop below `lo`. -/
def seekLoopBy (access : Access) (wanted : Stab → Bool) (lo : Int) : Nat → Int → Option Int
  | 0, _ => none
  | fuel + 1, m =>
      if m ≥ lo then do
        let stab ← access.read m
        if wanted stab then some m else seekLoopBy access wanted lo fuel (m - 1)
      else some m

def seekBackBy (access : Access) (wanted : Stab → Bool) (lo m : Int) : Option Int :=
  seekLoopBy access wanted lo ((m + 1 - lo).toNat + 1) m

def ofType (type : Byte) (stab : Stab) : Bool := stab.n_type == type

/-- The locals of the search and the two bounds that it returns. -/
structure Search where
  l : Int
  r : Int
  left : Int
  right : Int
  anyMatches : Bool
  addr : Word

def searchStepBy (access : Access) (type : Byte) (s : Search) : Option Search := do
  let sum ← access.sum s.l s.r
  let trueM := sum.tdiv 2
  -- search for earliest stab with right type
  let m ← seekBackBy access (ofType type) s.l trueM
  if m < s.l then some { s with l := trueM + 1 }
  else do
    let stab ← access.read m
    if stab.n_value < s.addr then
      some { s with anyMatches := true, left := m, l := trueM + 1 }
    else if stab.n_value > s.addr then
      some { s with anyMatches := true, right := m - 1, r := m - 1 }
    else
      -- exact match, but continue loop to find the right end
      some { s with anyMatches := true, left := m, l := m, addr := s.addr + 1 }

def searchLoopBy (access : Access) (type : Byte) : Nat → Search → Option Search
  | 0, _ => none
  | fuel + 1, s =>
      if s.l ≤ s.r then (searchStepBy access type s).bind (searchLoopBy access type fuel)
      else some s

/-- The values left in `*region_left` and `*region_right`. -/
def stabBinsearchBy (access : Access) (left right : Int) (type : Byte) (addr : Word) :
    Option (Int × Int) := do
  let s ← searchLoopBy access type (2 * (right + 1 - left).toNat + 2)
    { l := left, r := right, left, right, anyMatches := false, addr }
  if s.anyMatches then do
    -- find rightmost region containing 'addr'
    let l ← seekBackBy access (ofType type) (s.left + 1) s.right
    some (l, s.right)
  else some (s.left, s.left - 1)

/-! ## The search in a table -/

def seekBack (stabs : List Stab) : (Stab → Bool) → Int → Int → Option Int :=
  seekBackBy (.free stabs)

def searchStep (stabs : List Stab) : Byte → Search → Option Search := searchStepBy (.free stabs)

def searchLoop (stabs : List Stab) : Byte → Nat → Search → Option Search :=
  searchLoopBy (.free stabs)

def stabBinsearch (stabs : List Stab) : Int → Int → Byte → Word → Option (Int × Int) :=
  stabBinsearchBy (.free stabs)

section

variable (stabs : List Stab)

@[simp]
theorem free_read (i : Int) : (Access.free stabs).read i = stabAt stabs i := rfl

@[simp]
theorem free_sum (l r : Int) : (Access.free stabs).sum l r = some (l + r) := rfl

@[simp]
theorem seekBackBy_free (wanted : Stab → Bool) (lo m : Int) :
    seekBackBy (.free stabs) wanted lo m = seekBack stabs wanted lo m := rfl

@[simp]
theorem searchLoopBy_free (type : Byte) (fuel : Nat) (s : Search) :
    searchLoopBy (.free stabs) type fuel s = searchLoop stabs type fuel s := rfl

theorem searchLoop_succ (type : Byte) (fuel : Nat) (s : Search) :
    searchLoop stabs type (fuel + 1) s =
      if s.l ≤ s.r then (searchStep stabs type s).bind (searchLoop stabs type fuel)
      else some s := rfl

end

/-! ## Keys of a table -/

/-- The values of the wanted entries. -/
def keysWhere (stabs : List Stab) (wanted : Stab → Bool) : Keys Nat := fun i =>
  (stabAt stabs i).bind fun stab => if wanted stab then some stab.n_value.toNat else none

/-- The values of the entries of one type. -/
abbrev keysOf (stabs : List Stab) (type : Byte) : Keys Nat := keysWhere stabs (ofType type)

theorem stabAt_inside (stabs : List Stab) {i : Int} (hlo : 0 ≤ i) (hhi : i < stabs.length) :
    ∃ stab, stabAt stabs i = some stab := by
  have hlt : i.toNat < stabs.length := by omega
  refine ⟨stabs[i.toNat], ?_⟩
  rw [stabAt, if_pos hlo, List.getElem?_eq_getElem hlt]

theorem stabAt_bounds {stabs : List Stab} {i : Int} {stab : Stab}
    (h : stabAt stabs i = some stab) : 0 ≤ i ∧ i < stabs.length := by
  rw [stabAt] at h
  split at h
  · have hlt := (List.getElem?_eq_some_iff.mp h).1
    omega
  · cases h

theorem stabAt_mem {stabs : List Stab} {i : Int} {stab : Stab} (h : stabAt stabs i = some stab) :
    stab ∈ stabs := by
  rw [stabAt] at h
  split at h
  · exact List.mem_of_getElem? h
  · cases h

theorem keysWhere_wanted {stabs : List Stab} {wanted : Stab → Bool} {i : Int} {stab : Stab}
    (hat : stabAt stabs i = some stab) (h : wanted stab = true) :
    keysWhere stabs wanted i = some stab.n_value.toNat := by
  simp [keysWhere, hat, h]

theorem keysWhere_unwanted {stabs : List Stab} {wanted : Stab → Bool} {i : Int} {stab : Stab}
    (hat : stabAt stabs i = some stab) (h : ¬ wanted stab = true) :
    keysWhere stabs wanted i = none := by
  simp [keysWhere, hat, h]

theorem keysWhere_some {stabs : List Stab} {wanted : Stab → Bool} {i : Int} {v : Nat}
    (h : keysWhere stabs wanted i = some v) :
    ∃ stab, stabAt stabs i = some stab ∧ wanted stab = true ∧ stab.n_value.toNat = v := by
  obtain ⟨stab, hat, hkey⟩ := Option.bind_eq_some_iff.mp h
  split at hkey
  · rename_i hwanted
    cases hkey
    exact ⟨stab, hat, hwanted, rfl⟩
  · cases hkey

/-- An entry with a key of its type. -/
theorem keysOf_some {stabs : List Stab} {type : Byte} {i : Int} {v : Nat}
    (h : keysOf stabs type i = some v) :
    ∃ stab, stabAt stabs i = some stab ∧ stab.n_type = type ∧ stab.n_value.toNat = v := by
  obtain ⟨stab, hat, htype, hvalue⟩ := keysWhere_some h
  exact ⟨stab, hat, beq_iff_eq.mp htype, hvalue⟩

theorem keysOf_typed {stabs : List Stab} {type : Byte} {i : Int} {stab : Stab}
    (hat : stabAt stabs i = some stab) (h : stab.n_type = type) :
    keysOf stabs type i = some stab.n_value.toNat :=
  keysWhere_wanted hat (beq_iff_eq.mpr h)

theorem keysOf_other {stabs : List Stab} {type : Byte} {i : Int} {stab : Stab}
    (hat : stabAt stabs i = some stab) (h : stab.n_type ≠ type) : keysOf stabs type i = none :=
  keysWhere_unwanted hat fun hwanted => h (beq_iff_eq.mp hwanted)

/-- Looking downwards inside the table finds the last wanted entry, if any. -/
theorem seekBack_spec (stabs : List Stab) (wanted : Stab → Bool) {lo m : Int} (hlo : 0 ≤ lo)
    (hm : m < stabs.length) :
    (seekBack stabs wanted lo m = some (min m (lo - 1)) ∧
      ∀ i, lo ≤ i → i ≤ m → keysWhere stabs wanted i = none) ∨
    ∃ m' stab, seekBack stabs wanted lo m = some m' ∧ stabAt stabs m' = some stab ∧
      wanted stab = true ∧ LastIn (keysWhere stabs wanted) lo m m' stab.n_value.toNat := by
  rw [seekBack, seekBackBy]
  generalize hfuel : (m + 1 - lo).toNat = fuel
  induction fuel generalizing m with
  | zero =>
      left
      rw [seekLoopBy, if_neg (by omega)]
      refine ⟨?_, fun i hi hle => by omega⟩
      congr 1
      omega
  | succ fuel ih =>
      obtain ⟨stab, hat⟩ := stabAt_inside stabs (show 0 ≤ m by omega) hm
      rw [seekLoopBy, if_pos (by omega), free_read, hat]
      simp only [Option.bind_eq_bind, Option.bind_some]
      by_cases hwanted : wanted stab = true
      · right
        refine ⟨m, stab, by rw [if_pos hwanted], hat, hwanted, by omega, Int.le_refl m,
          keysWhere_wanted hat hwanted, fun i hi hle => by omega⟩
      · rw [if_neg hwanted]
        have hnone := keysWhere_unwanted hat hwanted
        rcases ih (show m - 1 < stabs.length by omega) (by omega) with
          ⟨hseek, hbelow⟩ | ⟨m', stab', hseek, hat', hwanted', hlast⟩
        · left
          constructor
          · rw [hseek]
            congr 1
            omega
          · intro i hi hle
            by_cases him : i = m
            · rw [him, hnone]
            · exact hbelow i hi (by omega)
        · right
          have hmid := hlast.le_mid
          refine ⟨m', stab', hseek, hat', hwanted', hlast.l_le, by omega, hlast.keyed, ?_⟩
          intro i hi hle
          by_cases him : i = m
          · rw [him, hnone]
          · exact hlast.last i hi (by omega)

/-! ## One halving -/

/-- What the body of the loop does to the window and the key. -/
inductive Step (keys : Keys Nat) (s : Search) : Search → Prop
  | skip (hnone : ∀ i, s.l ≤ i → i ≤ (s.l + s.r) / 2 → keys i = none) :
      Step keys s { s with l := (s.l + s.r) / 2 + 1 }
  | raise {m : Int} {v : Nat} (hlast : LastIn keys s.l ((s.l + s.r) / 2) m v)
      (hlt : v < s.addr.toNat) :
      Step keys s { s with anyMatches := true, left := m, l := (s.l + s.r) / 2 + 1 }
  | lower {m : Int} {v : Nat} (hlast : LastIn keys s.l ((s.l + s.r) / 2) m v)
      (hlt : s.addr.toNat < v) :
      Step keys s { s with anyMatches := true, right := m - 1, r := m - 1 }
  | exact {m : Int} (hlast : LastIn keys s.l ((s.l + s.r) / 2) m s.addr.toNat) :
      Step keys s { s with anyMatches := true, left := m, l := m, addr := s.addr + 1 }

theorem searchStep_step {stabs : List Stab} (type : Byte) {s : Search} (hlo : 0 ≤ s.l)
    (hopen : s.l ≤ s.r) (hhi : s.r < stabs.length) :
    ∃ s', searchStep stabs type s = some s' ∧ Step (keysOf stabs type) s s' := by
  have hmid : (s.l + s.r).tdiv 2 = (s.l + s.r) / 2 := Int.tdiv_eq_ediv_of_nonneg (by omega)
  rcases seekBack_spec stabs (ofType type) hlo (show (s.l + s.r) / 2 < stabs.length by omega) with
    ⟨hseek, hnone⟩ | ⟨m, stab, hseek, hat, htype, hlast⟩
  · refine ⟨_, ?_, .skip hnone⟩
    simp only [searchStep, searchStepBy, free_sum, seekBackBy_free, hmid, hseek,
      Option.bind_eq_bind, Option.bind_some]
    rw [if_pos (by omega)]
  · have hl := hlast.l_le
    simp only [searchStep, searchStepBy, free_sum, free_read, seekBackBy_free, hmid, hseek, hat,
      Option.bind_eq_bind, Option.bind_some]
    rw [if_neg (by omega)]
    by_cases hlt : stab.n_value < s.addr
    · exact ⟨_, if_pos hlt, .raise hlast hlt⟩
    · rw [if_neg hlt]
      by_cases hgt : stab.n_value > s.addr
      · exact ⟨_, if_pos hgt, .lower hlast hgt⟩
      · refine ⟨_, if_neg hgt, .exact ?_⟩
        have heq : stab.n_value.toNat = s.addr.toNat :=
          Nat.le_antisymm (Nat.le_of_not_lt hgt) (Nat.le_of_not_lt hlt)
        exact heq ▸ hlast

/-- The window shrinks, or its first entry stops being an exact match. -/
def Search.measure (keys : Keys Nat) (s : Search) : Nat :=
  2 * (s.r + 1 - s.l).toNat + if keys s.l = some s.addr.toNat then 1 else 0

theorem Step.measure_lt {keys : Keys Nat} {s s' : Search} (hopen : s.l ≤ s.r)
    (h : Step keys s s') : s'.measure keys < s.measure keys := by
  cases h with
  | skip hnone =>
      simp only [Search.measure]
      split <;> split <;> omega
  | raise hlast hlt =>
      simp only [Search.measure]
      split <;> split <;> omega
  | lower hlast hlt =>
      have hl := hlast.l_le
      have hmid := hlast.le_mid
      simp only [Search.measure]
      split <;> omega
  | @exact m hlast =>
      have hl := hlast.l_le
      have hmid := hlast.le_mid
      have hnext : keys m ≠ some (s.addr + 1).toNat := by
        rw [hlast.keyed, BitVec.toNat_add]
        simp only [ne_eq, Option.some.injEq]
        have := s.addr.isLt
        simp
        omega
      simp only [Search.measure]
      rw [if_neg hnext]
      by_cases hfirst : m = s.l
      · rw [← hfirst, if_pos hlast.keyed]
        omega
      · omega

theorem Step.inside {keys : Keys Nat} {s s' : Search} (hopen : s.l ≤ s.r) (h : Step keys s s') :
    s.l ≤ s'.l ∧ s'.r ≤ s.r := by
  cases h with
  | skip hnone => exact ⟨by simp only; omega, Int.le_refl _⟩
  | raise hlast hlt => exact ⟨by simp only; omega, Int.le_refl _⟩
  | lower hlast hlt =>
      have hmid := hlast.le_mid
      exact ⟨Int.le_refl _, by simp only; omega⟩
  | exact hlast => exact ⟨hlast.l_le, Int.le_refl _⟩

/-- The search ends, and what every halving preserves holds at its end. -/
theorem searchLoop_run {stabs : List Stab} {type : Byte} {I : Search → Prop}
    (hstep : ∀ s s', I s → s.l ≤ s.r → Step (keysOf stabs type) s s' → I s') {fuel : Nat}
    {s : Search} (hs : I s) (hlo : 0 ≤ s.l) (hhi : s.r < stabs.length)
    (hfuel : s.measure (keysOf stabs type) < fuel) :
    ∃ s', searchLoop stabs type fuel s = some s' ∧ I s' ∧ s'.r < s'.l := by
  induction fuel generalizing s with
  | zero => omega
  | succ fuel ih =>
      rw [searchLoop_succ]
      by_cases hopen : s.l ≤ s.r
      · obtain ⟨s', hrun, hs'⟩ := searchStep_step type hlo hopen hhi
        have hinside := hs'.inside hopen
        have hless := hs'.measure_lt hopen
        rw [if_pos hopen, hrun]
        exact ih (hstep s s' hs hopen hs') (by omega) (by omega) (by omega)
      · exact ⟨s, if_neg hopen, hs, by omega⟩

/-! ## The moving key -/

/-- When halving `[l, r]` first meets `k`, an entry one above `k` is still in
the window, or there is no address one above. -/
def Crowded (keys : Keys Nat) (k : Nat) (l r : Int) : Prop :=
  ∃ m r', Meets keys k l r m r' ∧
    (k + 1 = 4294967296 ∨ ∃ i, m ≤ i ∧ i ≤ r' ∧ keys i = some (k + 1))

/-- Without an exact match there is nothing to run into. -/
theorem not_crowded_of_absent {keys : Keys Nat} {k : Nat} {l r : Int}
    (h : ∀ i, l ≤ i → i ≤ r → keys i ≠ some k) : ¬ Crowded keys k l r := by
  rintro ⟨m, r', hmeets, -⟩
  have hm := hmeets.keyed
  exact h m hm.1 hm.2.2.1 hm.2.2.2

/-- The key is where it started, or one above it and out of the way of every
entry. -/
def KeyClear (keys : Keys Nat) (k : Nat) (s : Search) : Prop :=
  (s.addr.toNat = k ∧ ¬ Crowded keys k s.l s.r) ∨
    (s.addr.toNat = k + 1 ∧ ∀ i, s.l ≤ i → i ≤ s.r → keys i ≠ some (k + 1))

theorem KeyClear.step {keys : Keys Nat} {k : Nat} {s s' : Search} (h : KeyClear keys k s)
    (hopen : s.l ≤ s.r) (hstep : Step keys s s') : KeyClear keys k s' := by
  rcases h with ⟨hk, hclear⟩ | ⟨hk, hnext⟩
  · cases hstep with
    | skip hnone =>
        refine .inl ⟨hk, ?_⟩
        rintro ⟨m, r', hmeets, hup⟩
        exact hclear ⟨m, r', .skip hopen hnone hmeets, hup⟩
    | raise hlast hlt =>
        refine .inl ⟨hk, ?_⟩
        rintro ⟨m, r', hmeets, hup⟩
        exact hclear ⟨m, r', .raise hopen hlast (hk ▸ hlt) hmeets, hup⟩
    | lower hlast hlt =>
        refine .inl ⟨hk, ?_⟩
        rintro ⟨m, r', hmeets, hup⟩
        exact hclear ⟨m, r', .lower hopen hlast (hk ▸ hlt) hmeets, hup⟩
    | @exact m hlast =>
        rw [hk] at hlast
        have hmeets : Meets keys k s.l s.r m s.r := .here hopen hlast
        have hroom : k + 1 < 4294967296 := by
          have hlt := s.addr.isLt
          by_contra hend
          exact hclear ⟨m, s.r, hmeets, .inl (by omega)⟩
        right
        constructor
        · rw [BitVec.toNat_add, hk]
          exact Nat.mod_eq_of_lt hroom
        · intro i hi hle hkey
          exact hclear ⟨m, s.r, hmeets, .inr ⟨i, hi, hle, hkey⟩⟩
  · refine .inr ⟨?_, ?_⟩
    · cases hstep with
      | @exact m hlast =>
          rw [hk] at hlast
          have hmid := hlast.le_mid
          exact absurd hlast.keyed (hnext m hlast.l_le (by omega))
      | _ => exact hk
    · have hinside := hstep.inside hopen
      intro i hi hle
      exact hnext i (by omega) (by omega)

/-! ## What the search finds -/

/-- The search has a window for `k`, and has matched nothing or remembers it. -/
structure Sound (keys : Keys Nat) (lo hi : Int) (k : Nat) (s : Search) : Prop where
  window : Window keys lo hi k s.left s.l s.r
  right_eq : s.right = s.r
  unmatched : s.anyMatches = false → s.r = hi ∧ ∀ i, lo ≤ i → i < s.l → keys i = none
  clear : KeyClear keys k s

theorem Sound.step {keys : Keys Nat} {lo hi : Int} {k : Nat} {s s' : Search}
    (hordered : Ordered keys lo hi) (h : Sound keys lo hi k s) (hopen : s.l ≤ s.r)
    (hstep : Step keys s s') : Sound keys lo hi k s' := by
  have hclear := h.clear.step hopen hstep
  have hkey := h.clear
  have hmid : (s.l + s.r) / 2 ≤ s.r := by omega
  cases hstep with
  | skip hnone =>
      refine ⟨h.window.skip (by omega) hnone, h.right_eq, ?_, hclear⟩
      intro hany
      obtain ⟨hend, hbelow⟩ := h.unmatched hany
      exact ⟨hend, fun i hi hle => none_through hbelow hnone hi hle⟩
  | @raise m v hlast hlt =>
      have hle : v ≤ k := by
        rcases hkey with ⟨hk, _⟩ | ⟨hk, _⟩ <;> omega
      exact ⟨h.window.raise hmid hlast hle, h.right_eq, fun hany => (nomatch hany), hclear⟩
  | @lower m v hlast hlt =>
      have hgt : k < v := by
        rcases hkey with ⟨hk, _⟩ | ⟨hk, _⟩ <;> omega
      exact ⟨h.window.lower hordered hmid hlast hgt, rfl, fun hany => (nomatch hany), hclear⟩
  | @exact m hlast =>
      have hle : s.addr.toNat ≤ k := by
        rcases hkey with ⟨hk, _⟩ | ⟨hk, hnext⟩
        · exact Nat.le_of_eq hk
        · exact absurd (hk ▸ hlast.keyed) (hnext m hlast.l_le (Int.le_trans hlast.le_mid hmid))
      exact ⟨h.window.pin hmid hlast hle, h.right_eq, fun hany => (nomatch hany), hclear⟩

/-- The measure of a search that starts. -/
theorem measure_start (keys : Keys Nat) (left right : Int) (addr : Word) :
    Search.measure keys ⟨left, right, left, right, false, addr⟩ <
      2 * (right + 1 - left).toNat + 2 := by
  simp only [Search.measure]
  split <;> omega

/-- The search finds the region that contains the address. -/
theorem stabBinsearch_contains {stabs : List Stab} {type : Byte} {lo hi first last : Int}
    {addr : Word} (hlo : 0 ≤ lo) (hhi : hi < stabs.length)
    (hordered : Ordered (keysOf stabs type) lo hi)
    (hclear : ¬ Crowded (keysOf stabs type) addr.toNat lo hi)
    (h : Contains (keysOf stabs type) lo hi addr.toNat first last) :
    stabBinsearch stabs lo hi type addr = some (first, last) := by
  have hstart : Sound (keysOf stabs type) lo hi addr.toNat ⟨lo, hi, lo, hi, false, addr⟩ :=
    ⟨.start _ lo hi _, rfl, fun _ => ⟨rfl, fun i hi hle => by simp only at hle; omega⟩,
      .inl ⟨rfl, hclear⟩⟩
  obtain ⟨s, hrun, hs, hclosed⟩ := searchLoop_run
    (fun _ _ hs hopen hstep => hs.step hordered hopen hstep) hstart hlo hhi (measure_start _ _ _ _)
  obtain ⟨v, hv⟩ := h.keyed
  have hfirst : lo ≤ first ∧ first ≤ hi := ⟨h.lo_le, Int.le_trans h.first_le h.le_hi⟩
  have hhit : s.left = first ∧ s.r = last := by
    rcases hs.window.found with ⟨hleft, w, hw, hle⟩ | ⟨_, hnone⟩
    · exact (hs.window.contains hclosed hleft hw hle).unique h
    · by_cases hl : first < s.l
      · rw [hnone first hfirst.1 hl] at hv
        cases hv
      · have habove := hs.window.above first (by omega) hfirst.2 v hv
        exact absurd (h.at_most v hv) (Nat.not_le.mpr habove)
  have hany : s.anyMatches = true := by
    by_contra hmiss
    obtain ⟨hr, hnone⟩ := hs.unmatched (Bool.eq_false_iff.mpr hmiss)
    rw [hnone first hfirst.1 (by omega)] at hv
    cases hv
  have hlast := h.first_le
  have hend := h.le_hi
  rcases seekBack_spec stabs (ofType type) (show 0 ≤ first + 1 by omega)
    (show last < stabs.length by omega) with ⟨hseek, _⟩ | ⟨m, stab, _, _, _, hm⟩
  · simp only [stabBinsearch, stabBinsearchBy, searchLoopBy_free, seekBackBy_free, hrun, hany,
      hhit.1, hs.right_eq, hhit.2, hseek, Option.bind_eq_bind, Option.bind_some, if_true]
    congr 2
    omega
  · have hnone := h.alone m (Int.lt_of_add_one_le hm.l_le) hm.le_mid
    cases hm.keyed.symm.trans hnone

theorem stabBinsearch_empty {stabs : List Stab} {type : Byte} {lo hi : Int} (hempty : hi < lo)
    (addr : Word) : stabBinsearch stabs lo hi type addr = some (lo, lo - 1) := by
  simp [stabBinsearch, stabBinsearchBy, searchLoop_succ, Int.not_le.mpr hempty]

/-- The search has not matched anything yet. -/
structure Idle (lo hi : Int) (s : Search) : Prop where
  lo_le : lo ≤ s.l
  le_hi : s.r ≤ hi
  left : s.left = lo
  unmatched : s.anyMatches = false

theorem Idle.step {keys : Keys Nat} {lo hi : Int}
    (hnone : ∀ i, lo ≤ i → i ≤ hi → keys i = none) {s s' : Search} (h : Idle lo hi s)
    (hopen : s.l ≤ s.r) (hstep : Step keys s s') : Idle lo hi s' := by
  have hl := h.lo_le
  have hr := h.le_hi
  have hunmet : ∀ m v, ¬ LastIn keys s.l ((s.l + s.r) / 2) m v :=
    fun m v hlast => hlast.not_none fun i hi hie => hnone i (Int.le_trans hl hi) (by omega)
  cases hstep with
  | skip _ => exact ⟨by simp only; omega, hr, h.left, h.unmatched⟩
  | raise hlast _ => exact absurd hlast (hunmet _ _)
  | lower hlast _ => exact absurd hlast (hunmet _ _)
  | exact hlast => exact absurd hlast (hunmet _ _)

/-- Where there is no entry of the type, the left bound stays. -/
theorem stabBinsearch_absent {stabs : List Stab} {type : Byte} {lo hi : Int} (hlo : 0 ≤ lo)
    (hhi : hi < stabs.length) (hnone : ∀ i, lo ≤ i → i ≤ hi → keysOf stabs type i = none)
    (addr : Word) : stabBinsearch stabs lo hi type addr = some (lo, lo - 1) := by
  have hstart : Idle lo hi ⟨lo, hi, lo, hi, false, addr⟩ :=
    ⟨Int.le_refl lo, Int.le_refl hi, rfl, rfl⟩
  obtain ⟨s, hrun, hs, _⟩ := searchLoop_run (fun _ _ => Idle.step hnone) hstart hlo hhi
    (measure_start _ _ _ _)
  simp [stabBinsearch, stabBinsearchBy, hrun, hs.unmatched, hs.left]

/-- What the search keeps in a range of any contents. -/
structure Inside (keys : Keys Nat) (lo hi : Int) (s : Search) : Prop where
  lo_le : lo ≤ s.l
  le_hi : s.r ≤ hi
  right_eq : s.right = s.r
  lo_le_right : lo ≤ s.r + 1
  above_other : keys lo = none → lo ≤ s.r
  lo_le_left : lo ≤ s.left
  left_le_hi : s.left ≤ hi
  unmatched : s.anyMatches = false → s.r = hi ∧ ∀ i, lo ≤ i → i < s.l → keys i = none
  matched : s.anyMatches = true → ∃ i v, lo ≤ i ∧ i ≤ hi ∧ keys i = some v

theorem Inside.start (keys : Keys Nat) {lo hi : Int} (h : lo ≤ hi) (addr : Word) :
    Inside keys lo hi ⟨lo, hi, lo, hi, false, addr⟩ where
  lo_le := Int.le_refl lo
  le_hi := Int.le_refl hi
  right_eq := rfl
  lo_le_right := Int.le_trans h (Int.le_of_lt (Int.lt_succ hi))
  above_other := fun _ => h
  lo_le_left := Int.le_refl lo
  left_le_hi := h
  unmatched := fun _ => ⟨rfl, fun _ hi hlt => absurd hi (Int.not_le.mpr hlt)⟩
  matched := fun hany => nomatch hany

theorem Inside.step {keys : Keys Nat} {lo hi : Int} {s s' : Search} (h : Inside keys lo hi s)
    (hopen : s.l ≤ s.r) (hstep : Step keys s s') : Inside keys lo hi s' := by
  have hlo := h.lo_le
  have hhi := h.le_hi
  cases hstep with
  | skip hnone =>
      refine ⟨by simp only; omega, hhi, h.right_eq, h.lo_le_right, h.above_other, h.lo_le_left,
        h.left_le_hi, ?_, h.matched⟩
      intro hany
      obtain ⟨hend, hbelow⟩ := h.unmatched hany
      exact ⟨hend, fun i hi hle => none_through hbelow hnone hi hle⟩
  | @raise m v hlast hlt =>
      have hm := hlast.l_le
      have hmid := hlast.le_mid
      exact ⟨by simp only; omega, hhi, h.right_eq, h.lo_le_right, h.above_other,
        Int.le_trans hlo hm, by simp only; omega, fun hany => (nomatch hany),
        fun _ => ⟨m, v, by omega, by omega, hlast.keyed⟩⟩
  | @lower m v hlast hlt =>
      have hm := hlast.l_le
      have hmid := hlast.le_mid
      have hother : keys lo = none → m ≠ lo := by
        rintro hnone rfl
        cases hlast.keyed.symm.trans hnone
      refine ⟨hlo, by simp only; omega, rfl, by simp only; omega, ?_, h.lo_le_left, h.left_le_hi,
        fun hany => (nomatch hany), fun _ => ⟨m, v, by omega, by omega, hlast.keyed⟩⟩
      intro hnone
      have hne := hother hnone
      simp only
      omega
  | @exact m hlast =>
      have hm := hlast.l_le
      have hmid := hlast.le_mid
      exact ⟨Int.le_trans hlo hm, hhi, h.right_eq, h.lo_le_right, h.above_other,
        Int.le_trans hlo hm, by simp only; omega, fun hany => (nomatch hany),
        fun _ => ⟨m, _, by omega, by omega, hlast.keyed⟩⟩

/-- Without a match the bounds end on either side of `left`. -/
theorem stabBinsearch_unmatched {stabs : List Stab} {type : Byte} {lo hi : Int} {addr : Word}
    {s : Search} (hrun : searchLoop stabs type (2 * (hi + 1 - lo).toNat + 2)
      ⟨lo, hi, lo, hi, false, addr⟩ = some s) (hany : s.anyMatches = false) :
    stabBinsearch stabs lo hi type addr = some (s.left, s.left - 1) := by
  simp [stabBinsearch, stabBinsearchBy, hrun, hany]

/-- After a match the left end comes from the rescan: the last entry behind
`left`, or the nearer of the two ends. -/
theorem stabBinsearch_matched {stabs : List Stab} {type : Byte} {lo hi : Int} {addr : Word}
    {s : Search} (hrun : searchLoop stabs type (2 * (hi + 1 - lo).toNat + 2)
      ⟨lo, hi, lo, hi, false, addr⟩ = some s) (hany : s.anyMatches = true) (hleft : 0 ≤ s.left + 1)
    (hright : s.right < stabs.length) :
    ∃ a, stabBinsearch stabs lo hi type addr = some (a, s.right) ∧ a ≤ s.right ∧
      (a = min s.right s.left ∨ s.left < a ∧ ∃ v, keysOf stabs type a = some v) := by
  rcases seekBack_spec stabs (ofType type) hleft hright with
    ⟨hseek, _⟩ | ⟨m, stab, hseek, _, _, hm⟩
  · refine ⟨min s.right s.left, ?_, by omega, .inl rfl⟩
    simp [stabBinsearch, stabBinsearchBy, hrun, hany, hseek]
  · have hlm := hm.l_le
    refine ⟨m, ?_, hm.le_mid, .inr ⟨by omega, _, hm.keyed⟩⟩
    simp [stabBinsearch, stabBinsearchBy, hrun, hany, hseek]

/-- In a range of any contents the search reports a place inside, or just
before it, unless there is no entry of the type at all. -/
theorem stabBinsearch_ranged {stabs : List Stab} {type : Byte} {lo hi : Int} (addr : Word)
    (hlo : 0 ≤ lo) (hle : lo ≤ hi) (hhi : hi < stabs.length) :
    ∃ left right, stabBinsearch stabs lo hi type addr = some (left, right) ∧
      lo ≤ left + 1 ∧ right ≤ hi ∧ (keysOf stabs type lo = none → lo ≤ left) ∧
      (left ≤ right ↔ ∃ i v, lo ≤ i ∧ i ≤ hi ∧ keysOf stabs type i = some v) := by
  obtain ⟨s, hrun, hs, hclosed⟩ := searchLoop_run
    (fun _ _ hs hopen hstep => hs.step hopen hstep) (Inside.start (keysOf stabs type) hle addr)
    hlo hhi (measure_start _ _ _ _)
  have hright := hs.right_eq
  have hr := hs.le_hi
  have hlor := hs.lo_le_right
  have hleft := hs.lo_le_left
  have hlefthi := hs.left_le_hi
  cases hany : s.anyMatches with
  | false =>
      obtain ⟨hend, hnone⟩ := hs.unmatched hany
      refine ⟨s.left, s.left - 1, stabBinsearch_unmatched hrun hany, by omega, by omega,
        fun _ => hleft, ?_⟩
      constructor
      · intro h
        omega
      · rintro ⟨i, v, hi, hihi, hkey⟩
        rw [hnone i hi (by omega)] at hkey
        cases hkey
  | true =>
      obtain ⟨a, hfound, ha, hplace⟩ := stabBinsearch_matched hrun hany (by omega) (by omega)
      refine ⟨a, s.right, hfound, by omega, by omega, ?_, iff_of_true ha (hs.matched hany)⟩
      intro hother
      have habove := hs.above_other hother
      omega

/-- After an entry of another type the place is inside. -/
theorem stabBinsearch_inside {stabs : List Stab} {type : Byte} {lo hi : Int} (addr : Word)
    (hlo : 0 ≤ lo) (hle : lo ≤ hi) (hhi : hi < stabs.length)
    (hother : keysOf stabs type lo = none) :
    ∃ left right, stabBinsearch stabs lo hi type addr = some (left, right) ∧
      lo ≤ left ∧ right ≤ hi ∧
      (left ≤ right ↔ ∃ i v, lo ≤ i ∧ i ≤ hi ∧ keysOf stabs type i = some v) := by
  obtain ⟨left, right, hfound, _, hright, hleft, hmatch⟩ := stabBinsearch_ranged addr hlo hle hhi
  exact ⟨left, right, hfound, hleft hother, hright, hmatch⟩

end JOSKernel.Kern.StabBinsearch
