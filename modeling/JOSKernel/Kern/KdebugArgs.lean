import JOSKernel.Kern.KdebugReads

/-!
# Counting arguments (`debuginfo_eip` in `kern/kdebug.c`)

The loop that counts parameter stabs does not look at the last stab of the
function.  Where it runs, the line was found in the function, and not in its
first stab; so a line stab ends the parameters before the loop does.
-/

namespace JOSKernel.Kern.KdebugArgs

open JOSKernel.General.MachineInt
open JOSKernel.General.SparseSearch
open JOSKernel.Lib.StringRoutines
open JOSKernel.Kern.StabBinsearch
open JOSKernel.Kern.Kdebug
open JOSKernel.Kern.KdebugReads

/-! ## Where a region starts -/

/-- The left bound is the one that the search was given, or an entry. -/
structure Anchored (keys : Keys Nat) (lo hi : Int) (s : Search) : Prop
    extends Inside keys lo hi s where
  anchor : s.left = lo ∨ ∃ v, keys s.left = some v

theorem Anchored.step {keys : Keys Nat} {lo hi : Int} {s s' : Search} (h : Anchored keys lo hi s)
    (hopen : s.l ≤ s.r) (hstep : Step keys s s') : Anchored keys lo hi s' := by
  refine ⟨h.toInside.step hopen hstep, ?_⟩
  cases hstep with
  | skip _ => exact h.anchor
  | raise hlast _ => exact .inr ⟨_, hlast.keyed⟩
  | lower _ _ => exact h.anchor
  | exact hlast => exact .inr ⟨_, hlast.keyed⟩

/-- A region of several stabs starts at an entry, or where the search did. -/
theorem stabBinsearch_anchor {stabs : List Stab} {type : Byte} {lo hi a b : Int} {addr : Word}
    (hlo : 0 ≤ lo) (hhi : hi < stabs.length)
    (h : stabBinsearch stabs lo hi type addr = some (a, b)) (hlt : a < b) :
    a = lo ∨ ∃ v, keysOf stabs type a = some v := by
  by_cases hle : lo ≤ hi
  · obtain ⟨s, hrun, hs, _⟩ := searchLoop_run (fun _ _ hs hopen hstep => hs.step hopen hstep)
      (show Anchored (keysOf stabs type) lo hi ⟨lo, hi, lo, hi, false, addr⟩ from
        ⟨.start _ hle addr, .inl rfl⟩) hlo hhi (measure_start _ _ _ _)
    have hleft := hs.lo_le_left
    have hright := hs.right_eq
    have hr := hs.le_hi
    cases hany : s.anyMatches with
    | false =>
        cases h.symm.trans (stabBinsearch_unmatched hrun hany)
        omega
    | true =>
        obtain ⟨a', hfound, _, hplace⟩ := stabBinsearch_matched hrun hany (by omega) (by omega)
        cases h.symm.trans hfound
        rcases hplace with hmin | ⟨_, hkey⟩
        · have hstart : a = s.left := by omega
          rw [hstart]
          exact hs.anchor
        · exact .inr hkey
  · rw [stabBinsearch_empty (Int.not_le.mp hle)] at h
    cases h
    omega

/-! ## Counting parameters -/

/-- The parameter stabs that follow a function stab. -/
abbrev ParamRun (stabs : List Stab) (first last : Int) (k : Nat) : Prop :=
  KeyRun (keysOf stabs N_PSYM) first last k

/-- Some stab up to the last one is not a parameter. -/
def Interrupted (stabs : List Stab) (first last : Int) : Prop :=
  ∃ q, first ≤ q ∧ q ≤ last ∧ keysOf stabs N_PSYM q = none

/-- Before a stab that is not a parameter the loop counts all that are. -/
theorem countArgs_run {stabs : List Stab} {rfun lline narg n : Int} {fuel : Nat}
    (hstop : Interrupted stabs lline rfun)
    (h : countArgs stabs rfun fuel lline narg = some n) :
    ∃ k : Nat, n = narg + k ∧ ParamRun stabs lline rfun k := by
  obtain ⟨q, hq, hqr, hnone⟩ := hstop
  induction fuel generalizing lline narg with
  | zero => cases h
  | succ fuel ih =>
      rw [countArgs] at h
      split at h
      · obtain ⟨stab, hat, h⟩ := Option.bind_eq_some_iff.mp h
        split at h
        · rename_i htype
          have hkey := keysOf_typed hat htype
          have hne : q ≠ lline := by
            rintro rfl
            cases hnone.symm.trans hkey
          obtain ⟨k, rfl, hrun⟩ := ih h (by omega)
          exact ⟨k + 1, by omega, hrun.cons hkey⟩
        · rename_i htype
          cases h
          exact ⟨0, by omega, .stop (by omega) fun _ => keysOf_other hat htype⟩
      · cases h
        have hlast : q = lline := by omega
        exact ⟨0, by omega, .stop (by omega) fun _ => hlast ▸ hnone⟩

theorem functionArgs_run {stabs : List Stab} {lfun rfun narg n : Int} (hle : lfun ≤ rfun)
    (hstop : lfun < rfun → Interrupted stabs (lfun + 1) rfun)
    (h : functionArgs stabs lfun rfun narg = some n) :
    ∃ k : Nat, n = narg + k ∧ ParamRun stabs (lfun + 1) rfun k := by
  rw [functionArgs] at h
  split at h
  · rename_i hlt
    exact countArgs_run (hstop hlt) h
  · cases h
    exact ⟨0, by omega, .stop (by omega) fun hin => by omega⟩

theorem functionArgs_missing {stabs : List Stab} {lfun rfun narg n : Int} (hlt : rfun < lfun)
    (h : functionArgs stabs lfun rfun narg = some n) : n = narg := by
  rw [functionArgs, if_neg (by omega)] at h
  cases h
  rfl

/-! ## What the searches have found -/

/-- A file stab other than the first in the table comes with a region. -/
theorem file_region {stabs : List Stab} {addr : Word} {lfile rfile : Int}
    (h : stabBinsearch stabs 0 (stabs.length - 1) N_SO addr = some (lfile, rfile))
    (hpos : 1 ≤ lfile) : lfile ≤ rfile ∧ rfile < stabs.length := by
  have hhi : (stabs.length : Int) - 1 < stabs.length := by omega
  rcases keyed_or_none (keysOf stabs N_SO) 0 (stabs.length - 1) with hnone | ⟨hle, hsome⟩
  · rw [stabBinsearch_absent (Int.le_refl 0) hhi hnone] at h
    cases h
    omega
  · obtain ⟨f, e, hfound, _, he, _, hmatch⟩ := stabBinsearch_ranged addr (Int.le_refl 0) hle hhi
    cases h.symm.trans hfound
    exact ⟨hmatch.mpr hsome, by omega⟩

/-- No line starts where a function of several stabs does. -/
theorem function_not_line {stabs : List Stab} {addr : Word} {lfile rfile lfun rfun : Int}
    (hfile : stabBinsearch stabs 0 (stabs.length - 1) N_SO addr = some (lfile, rfile))
    (hpos : 1 ≤ lfile) (hfun : stabBinsearch stabs lfile rfile N_FUN addr = some (lfun, rfun))
    (hend : rfun ≤ rfile) (hlt : lfun < rfun) : keysOf stabs N_SLINE lfun = none := by
  have hrfile := (file_region hfile hpos).2
  have hother : ∀ type, type ≠ N_SLINE → (∃ v, keysOf stabs type lfun = some v) →
      keysOf stabs N_SLINE lfun = none := by
    rintro type hne ⟨v, hv⟩
    obtain ⟨stab, hat, htype, _⟩ := keysOf_some hv
    exact keysOf_other hat (htype.trans_ne hne)
  rcases stabBinsearch_anchor (by omega) hrfile hfun hlt with rfl | hkey
  · -- the function search was left where the file starts
    rcases stabBinsearch_anchor (Int.le_refl 0) (by omega) hfile (by omega) with rfl | hkey
    · omega
    · exact hother N_SO (by decide) hkey
  · exact hother N_FUN (by decide) hkey

/-- A line found in a function of several stabs interrupts its parameters. -/
theorem interrupted_of_line {stabs : List Stab} {addr offset : Word}
    {lfile rfile lfun rfun a b : Int}
    (hfile : stabBinsearch stabs 0 (stabs.length - 1) N_SO addr = some (lfile, rfile))
    (hpos : 1 ≤ lfile) (hfun : stabBinsearch stabs lfile rfile N_FUN addr = some (lfun, rfun))
    (hline : stabBinsearch stabs lfun rfun N_SLINE offset = some (a, b)) (hab : a ≤ b)
    (hlt : lfun < rfun) : Interrupted stabs (lfun + 1) rfun := by
  obtain ⟨hregion, hrfile⟩ := file_region hfile hpos
  obtain ⟨g, h, hfound, hlow, hend, _⟩ :=
    @stabBinsearch_ranged stabs N_FUN lfile rfile addr (by omega) hregion hrfile
  cases hfun.symm.trans hfound
  obtain ⟨g, h, hfound, _, _, _, hmatch⟩ :=
    @stabBinsearch_ranged stabs N_SLINE lfun rfun offset (by omega) (Int.le_of_lt hlt) (by omega)
  cases hline.symm.trans hfound
  obtain ⟨q, v, hq, hqr, hv⟩ := hmatch.mp hab
  have hfirst : q ≠ lfun := by
    rintro rfl
    cases hv.symm.trans (function_not_line hfile hpos hfun hend hlt)
  obtain ⟨stab, hat, htype, _⟩ := keysOf_some hv
  exact ⟨q, by omega, hqr, keysOf_other hat (by rw [htype]; decide)⟩

/-! ## The argument count -/

/-- Success means that a line was found, and that the count goes on from the
record. -/
theorem lineInfo_success {stabs : List Stab} {stabstr : List Byte} {info info' : Eipdebuginfo}
    {addr : Word} {lfile lfun rfun lline rline : Int}
    (h : lineInfo stabs stabstr info addr lfile lfun rfun lline rline = some (.ret 0 info')) :
    (∃ a b, stabBinsearch stabs lline rline N_SLINE addr = some (a, b) ∧ a ≤ b) ∧
      functionArgs stabs lfun rfun info.eip_fn_narg = some info'.eip_fn_narg := by
  obtain ⟨⟨a, b⟩, hsearch, h⟩ := Option.bind_eq_some_iff.mp h
  dsimp only at h
  split at h
  · cases h
  · rename_i hfound
    obtain ⟨sline, _, h⟩ := Option.bind_eq_some_iff.mp h
    obtain ⟨info₁, hinfo, h⟩ := Option.bind_eq_some_iff.mp h
    obtain ⟨k, hargs, h⟩ := Option.bind_eq_some_iff.mp h
    obtain ⟨file, rfl, _⟩ := fileInfo_cases hinfo
    cases h
    exact ⟨⟨a, b, hsearch, Int.not_lt.mp hfound⟩, hargs⟩

/-- Inside a function the line is searched for in the same region. -/
theorem functionInfo_region {stabs : List Stab} {stabstr : List Byte} {info : Eipdebuginfo}
    {addr : Word} {lfile rfile lfun rfun : Int} {r : Eipdebuginfo × Word × Int × Int}
    (hle : lfun ≤ rfun)
    (h : functionInfo stabs stabstr info addr lfile rfile lfun rfun = some r) :
    r.2.2 = (lfun, rfun) := by
  rw [functionInfo, if_pos hle] at h
  obtain ⟨stab, _, h⟩ := Option.bind_eq_some_iff.mp h
  cases h
  rfl

/-- Where `debuginfo_eip` succeeds, it counts all the parameters behind the
function stab up to the end of the function, or nothing without a function. -/
theorem debuginfoEip_narg {stabs : List Stab} {stabstr : List Byte} {addr : Word}
    {before info : Eipdebuginfo} {lfile rfile lfun rfun : Int}
    (hret : debuginfoEipInto stabs stabstr addr before = some (.ret 0 info))
    (hfile : stabBinsearch stabs 0 (stabs.length - 1) N_SO addr = some (lfile, rfile))
    (hpos : 1 ≤ lfile)
    (hfun : stabBinsearch stabs lfile rfile N_FUN addr = some (lfun, rfun)) :
    (lfun ≤ rfun → ∃ k : Nat, info.eip_fn_narg = k ∧ ParamRun stabs (lfun + 1) rfun k) ∧
      (rfun < lfun → info.eip_fn_narg = 0) := by
  rw [debuginfoEipInto_eq] at hret
  rcases debuginfoEip_cases hret with ⟨_, hpanic⟩ | hfail |
    ⟨_, _, _, _, _, r, n, hfile', hfun', hr, _, hline⟩
  · cases hpanic
  · cases hfail
  cases hfile.symm.trans hfile'
  cases hfun.symm.trans hfun'
  obtain ⟨⟨a, b, hsearch, hab⟩, hargs⟩ := lineInfo_success hline
  obtain ⟨name, start, hinfo, _⟩ := functionInfo_cases hr
  have hzero : r.1.eip_fn_narg = 0 := by rw [hinfo]; rfl
  dsimp only at hargs
  rw [hzero] at hargs
  constructor
  · intro hle
    have hregion := functionInfo_region hle hr
    rw [hregion] at hsearch
    obtain ⟨k, hk, hrun⟩ := functionArgs_run hle
      (interrupted_of_line hfile hpos hfun hsearch hab) hargs
    exact ⟨k, by rw [hk, Int.zero_add], hrun⟩
  · intro hlt
    exact functionArgs_missing hlt hargs

/-- One function of two parameters, and one line. -/
def twoParameters : List Stab :=
  [⟨0, 0, 0, 0⟩, ⟨1, N_SO, 0, 0xF0100000⟩, ⟨5, N_FUN, 0, 0xF0100000⟩, ⟨9, N_PSYM, 0, 8⟩,
    ⟨11, N_PSYM, 0, 12⟩, ⟨0, N_SLINE, 7, 0⟩]

/-- The names `a.c`, `f:F`, `x` and `y`. -/
def parameterNames : List Byte :=
  0 :: (cstr (bytes "a.c") ++ cstr (bytes "f:F") ++ cstr (bytes "x") ++ cstr (bytes "y"))

theorem debuginfoEip_narg_two : ∃ k : Nat, (2 : Int) = k ∧ ParamRun twoParameters (2 + 1) 5 k := by
  have hret : debuginfoEipInto twoParameters parameterNames 0xF0100004 (unknownInfo 0) =
      some (.ret 0 ⟨.entry 1, 7, .entry 5, 1, 0xF0100000, 2⟩) := rfl
  exact (debuginfoEip_narg hret (show _ = some (1, 5) from rfl) (by decide)
    (show _ = some (2, 5) from rfl)).1 (by decide)

end JOSKernel.Kern.KdebugArgs
