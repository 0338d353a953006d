import JOSKernel.Kern.Kdebug
import JOSKernel.Kern.StabReads

/-!
# What `debuginfo_eip` reads and points to

Each search starts from the place that the search before it gives.  A place
just below a range sends the next search below it as well, in the end below the
table.  The texts of the result stay inside the string table for any stabs.
-/

namespace JOSKernel.Kern.KdebugReads

open JOSKernel.General.MachineInt
open JOSKernel.General.SparseSearch
open JOSKernel.Lib.StringRoutines
open JOSKernel.Kern.StabBinsearch
open JOSKernel.Kern.StabOverrun
open JOSKernel.Kern.StabReads
open JOSKernel.Kern.Kdebug

/-! ## Texts -/

/-- The pointer is to `"<unknown>"` or into the string table. -/
def PointsInside (stabstr : List Byte) : Text → Prop
  | .unknown => True
  | .entry n_strx => n_strx < stabstr.length

/-- The texts of a result. -/
structure TextsInside (stabstr : List Byte) (info : Eipdebuginfo) : Prop where
  file : PointsInside stabstr info.eip_file
  fn_name : PointsInside stabstr info.eip_fn_name
  fn_namelen : ∃ n : Nat, info.eip_fn_namelen = n ∧
    UpTo (info.eip_fn_name.readable stabstr) (ascii ':') n

theorem readable_unknown (stabstr : List Byte) : 0 ∈ Text.unknown.readable stabstr :=
  List.mem_append_right _ (List.mem_singleton.mpr rfl)

theorem readable_terminated {stabstr : List Byte} (hterm : stabstr.getLast? = some 0) {text : Text}
    (h : PointsInside stabstr text) : 0 ∈ text.readable stabstr := by
  cases text with
  | unknown => exact readable_unknown stabstr
  | entry n_strx => exact readable_nul hterm h

theorem strfind_inside {stabstr : List Byte} (hterm : stabstr.getLast? = some 0) {text : Text}
    (h : PointsInside stabstr text) :
    ∃ n, strfind (text.readable stabstr) (ascii ':') = some n ∧
      UpTo (text.readable stabstr) (ascii ':') n :=
  strfind_spec (ascii ':') (readable_terminated hterm h)

theorem unknownInfo_texts (stabstr : List Byte) (addr : Word) :
    TextsInside stabstr (unknownInfo addr) where
  file := trivial
  fn_name := trivial
  fn_namelen := ⟨9, rfl, by
    obtain ⟨n, hfind, hup⟩ := strfind_spec (ascii ':') (readable_unknown stabstr)
    cases hfind.symm.trans (strfind_unknown stabstr)
    exact hup⟩

theorem PointsInside.of_kept {stabstr : List Byte} {before text : Text}
    (h : PointsInside stabstr before) (hkept : KeptOrEntry stabstr before text) :
    PointsInside stabstr text := by
  rcases hkept with rfl | ⟨n_strx, hinside, rfl⟩
  · exact h
  · exact hinside

theorem functionInfo_name {stabs : List Stab} {stabstr : List Byte} {info : Eipdebuginfo}
    {addr : Word} {lfile rfile lfun rfun : Int} {r : Eipdebuginfo × Word × Int × Int}
    (h : functionInfo stabs stabstr info addr lfile rfile lfun rfun = some r)
    (hname : PointsInside stabstr info.eip_fn_name) : PointsInside stabstr r.1.eip_fn_name := by
  obtain ⟨name, start, hr, hkept⟩ := functionInfo_cases h
  rw [hr]
  exact hname.of_kept hkept

/-- Wherever the colon is looked for, the search for it stops in the string table. -/
def ScanInside (stabs : List Stab) (stabstr : List Byte) (addr : Word) : Prop :=
  stabstr.getLast? = some 0 → ∀ lfile rfile lfun rfun r,
    functionInfo stabs stabstr (unknownInfo addr) addr lfile rfile lfun rfun = some r →
    ∃ n, strfind (r.1.eip_fn_name.readable stabstr) (ascii ':') = some n ∧
      ∀ n_strx, r.1.eip_fn_name = .entry n_strx → n_strx + n < stabstr.length

theorem scanInside (stabs : List Stab) (stabstr : List Byte) (addr : Word) :
    ScanInside stabs stabstr addr := by
  intro hterm lfile rfile lfun rfun r h
  have hname := functionInfo_name h trivial
  obtain ⟨n, hfind, hup⟩ := strfind_inside hterm hname
  refine ⟨n, hfind, ?_⟩
  intro n_strx heq
  have hlt := hup.lt_length
  rw [heq, Text.readable, List.length_drop] at hlt
  omega

/-- Each outcome comes from one of the early returns, or from the search for the
line behind the function name. -/
theorem debuginfoEip_cases {stabs : List Stab} {stabstr : List Byte} {addr : Word}
    {outcome : Outcome} (h : debuginfoEip stabs stabstr addr = some outcome) :
    (addr < ULIM ∧ outcome = .panic) ∨ outcome = .ret (-1) (unknownInfo addr) ∨
      (stabstr.getLast? = some 0 ∧ ∃ lfile rfile lfun rfun r n,
        stabBinsearch stabs 0 (stabs.length - 1) N_SO addr = some (lfile, rfile) ∧
        stabBinsearch stabs lfile rfile N_FUN addr = some (lfun, rfun) ∧
        functionInfo stabs stabstr (unknownInfo addr) addr lfile rfile lfun rfun = some r ∧
        strfind (r.1.eip_fn_name.readable stabstr) (ascii ':') = some n ∧
        lineInfo stabs stabstr { r.1 with eip_fn_namelen := n } r.2.1 lfile lfun rfun r.2.2.1 r.2.2.2 =
          some outcome) := by
  rw [debuginfoEip, debuginfoEipInto, initInfo_eq] at h
  split at h
  · rename_i huser
    cases h
    exact Or.inl ⟨huser, rfl⟩
  split at h
  · cases h
    exact Or.inr (Or.inl rfl)
  rename_i hterm
  obtain ⟨⟨lfile, rfile⟩, hfile, h⟩ := Option.bind_eq_some_iff.mp h
  dsimp only at h
  split at h
  · cases h
    exact Or.inr (Or.inl rfl)
  obtain ⟨⟨lfun, rfun⟩, hfun, h⟩ := Option.bind_eq_some_iff.mp h
  obtain ⟨r, hr, h⟩ := Option.bind_eq_some_iff.mp h
  obtain ⟨n, hfind, hline⟩ := Option.bind_eq_some_iff.mp h
  exact Or.inr (Or.inr ⟨not_not.mp hterm, lfile, rfile, lfun, rfun, r, n, hfile, hfun, hr, hfind,
    hline⟩)

/-- The texts of every result are inside. -/
theorem debuginfoEip_texts {stabs : List Stab} {stabstr : List Byte} {addr : Word} {code : Int}
    {info : Eipdebuginfo} (h : debuginfoEip stabs stabstr addr = some (.ret code info)) :
    TextsInside stabstr info := by
  rcases debuginfoEip_cases h with ⟨_, hpanic⟩ | hunknown |
    ⟨hterm, lfile, rfile, lfun, rfun, r, n, _, _, hr, hfind, hline⟩
  · cases hpanic
  · cases hunknown
    exact unknownInfo_texts stabstr addr
  · have hname := functionInfo_name hr trivial
    obtain ⟨n', hfind', hup⟩ := strfind_inside hterm hname
    cases hfind.symm.trans hfind'
    obtain ⟨name, start, hinfo, _⟩ := functionInfo_cases hr
    obtain ⟨_, file, line, narg, hret, hkept, _⟩ := lineInfo_cases hline
    cases hret
    have hold : PointsInside stabstr r.1.eip_file := by
      rw [hinfo]
      trivial
    exact ⟨hold.of_kept hkept, hname, n, rfl, hup⟩

/-- On each path the texts are inside, and no scan leaves the string table. -/
theorem debuginfoEip_texts_inside (stabs : List Stab) (stabstr : List Byte) (addr : Word) :
    (∀ code info, debuginfoEip stabs stabstr addr = some (.ret code info) →
      TextsInside stabstr info) ∧ ScanInside stabs stabstr addr := by
  constructor
  · intro code info h
    exact debuginfoEip_texts h
  · exact scanInside stabs stabstr addr

/-! ## Stabs -/

/-- The last search is sent below the table: at the last address the file is
taken to start at stab 1, and the function there at stab 0, whose line lies
above the address. -/
structure LineBelow (stabs : List Stab) (addr : Word) : Prop where
  last : addr.toNat = 4294967295
  file : ∃ r', Meets (keysOf stabs N_SO) addr.toNat 0 (stabs.length - 1) 2 r' ∧
    Sinks (keysOf stabs N_SO) 0 2 r'
  function : keysOf stabs N_FUN 1 = some 4294967295
  line : ∃ v, keysOf stabs N_SLINE 0 = some v ∧ 2147483648 ≤ v

/-- A search is sent below the table. -/
def ReadsBelow (stabs : List Stab) (addr : Word) : Prop :=
  Sunk (keysOf stabs N_SO) addr.toNat 0 (stabs.length - 1) ∨ LineBelow stabs addr

/-- Every stab that is read is in the table. -/
def ReadsInside (stabs : List Stab) (stabstr : List Byte) (addr : Word) : Prop :=
  ∃ outcome, debuginfoEip stabs stabstr addr = some outcome

theorem lineInfo_outside {stabs : List Stab} {stabstr : List Byte} {info : Eipdebuginfo}
    {addr : Word} {lfile lfun rfun lline rline : Int}
    (hsearch : stabBinsearch stabs lline rline N_SLINE addr = some (-1, -1)) :
    lineInfo stabs stabstr info addr lfile lfun rfun lline rline = none := by
  simp only [lineInfo, hsearch, Option.bind_eq_bind, Option.bind_some]
  rfl

theorem debuginfoEip_file_outside {stabs : List Stab} {stabstr : List Byte} {addr : Word}
    (hulim : ULIM ≤ addr) (hterm : stabstr.getLast? = some 0)
    (h : Sunk (keysOf stabs N_SO) addr.toNat 0 (stabs.length - 1)) :
    debuginfoEip stabs stabstr addr = none := by
  have hfile := stabBinsearch_sunk (Int.le_refl 0) (by omega) h
  rw [debuginfoEip_terminated hulim hterm, hfile]
  rfl

theorem debuginfoEip_line_outside {stabs : List Stab} {stabstr : List Byte} {addr : Word}
    (hulim : ULIM ≤ addr) (hterm : stabstr.getLast? = some 0) (h : LineBelow stabs addr) :
    debuginfoEip stabs stabstr addr = none := by
  have hlast := h.last
  obtain ⟨r', hmeets, hsinks⟩ := h.file
  have hfile := stabBinsearch_sinks (Int.le_refl 0) (by omega) (by omega) hmeets hsinks
  obtain ⟨fn, hfn, _⟩ := keysOf_some h.function
  have hlen := (stabAt_bounds hfn).2
  have hfun : stabBinsearch stabs 1 1 N_FUN addr = some (0, 0) := by
    have hat : LastIn (keysOf stabs N_FUN) 1 ((1 + 1) / 2) 1 4294967295 :=
      ⟨Int.le_refl 1, by decide, h.function, fun i hi hie => by omega⟩
    exact stabBinsearch_sinks (by decide) hlen (by omega)
      (.here (Int.le_refl 1) (by rw [hlast]; exact hat))
      (.bottom (Int.le_refl 1) hat (by decide))
  obtain ⟨v, hv, hbig⟩ := h.line
  obtain ⟨stab, hat, _, hvalue⟩ := keysOf_some hv
  have hlt := stab.n_value.isLt
  have hoffset : (addr - stab.n_value).toNat = addr.toNat - stab.n_value.toNat :=
    BitVec.toNat_sub_of_le (BitVec.le_def.mpr (by omega))
  have hline : stabBinsearch stabs 0 0 N_SLINE (addr - stab.n_value) = some (-1, -1) := by
    refine stabBinsearch_sunk (Int.le_refl 0) (by omega) (.inl (.bottom (Int.le_refl 0)
      ⟨Int.le_refl 0, by decide, hv, fun i hi hie => by omega⟩ ?_))
    omega
  rw [debuginfoEip_eq hterm hulim (by decide) hfile hfun]
  simp only [functionInfo, Int.le_refl, if_true, hat, Option.bind_eq_bind, Option.bind_some,
    lineInfo_outside hline, Option.bind_fun_none]

theorem fileInfo_total {stabs : List Stab} (stabstr : List Byte) (info : Eipdebuginfo)
    {lfile lline : Int} (hlfile : 0 ≤ lfile) (hlline : lline < stabs.length) :
    ∃ info', fileInfo stabs stabstr info lfile lline = some info' := by
  rcases seekBack_spec stabs namesFile hlfile hlline with
    ⟨hseek, _⟩ | ⟨j, file, hseek, hat, _, hlast⟩
  · refine ⟨info, ?_⟩
    simp only [fileInfo, hseek, Option.bind_eq_bind, Option.bind_some]
    exact if_neg (by omega)
  · simp only [fileInfo, hseek, hat, hlast.l_le, ge_iff_le, if_true, Option.bind_eq_bind,
      Option.bind_some]
    split
    · exact ⟨_, rfl⟩
    · exact ⟨info, rfl⟩

/-- Behind a search that stays in the table all reads do. -/
theorem lineInfo_total {stabs : List Stab} (stabstr : List Byte) (info : Eipdebuginfo) {addr : Word}
    {lfile lfun rfun lline rline a b : Int} (hlfile : 0 ≤ lfile) (hlfun : 0 ≤ lfun)
    (hrfun : rfun < stabs.length)
    (hsearch : stabBinsearch stabs lline rline N_SLINE addr = some (a, b)) (ha : a ≤ b → 0 ≤ a)
    (hb : b < stabs.length) :
    ∃ outcome, lineInfo stabs stabstr info addr lfile lfun rfun lline rline = some outcome := by
  simp only [lineInfo, hsearch, Option.bind_eq_bind, Option.bind_some]
  by_cases hmiss : a > b
  · exact ⟨_, if_pos hmiss⟩
  · obtain ⟨sline, hat⟩ := stabAt_inside stabs (ha (Int.not_lt.mp hmiss))
      (Int.lt_of_le_of_lt (Int.not_lt.mp hmiss) hb)
    obtain ⟨info', hfile⟩ := fileInfo_total stabstr { info with eip_line := sline.n_desc.toNat }
      hlfile (Int.lt_of_le_of_lt (Int.not_lt.mp hmiss) hb)
    obtain ⟨k, hargs⟩ := functionArgs_total hlfun hrfun info'.eip_fn_narg
    refine ⟨.ret 0 { info' with eip_fn_narg := k }, ?_⟩
    rw [if_neg hmiss, hat, Option.bind_some, hfile, Option.bind_some, hargs, Option.bind_some]

/-- A line search that ends below the table has been sent there. -/
theorem lineBelow_of_sunk {stabs : List Stab} {addr : Word} {f e h : Int} {fn : Stab}
    (hhi : (stabs.length : Int) - 1 < stabs.length) (hf : 0 < f) (hfe : f ≤ e)
    (hfile : stabBinsearch stabs 0 (stabs.length - 1) N_SO addr = some (f, e))
    (hbefore : f ≤ 0 + 1) (hfun : Sunk (keysOf stabs N_FUN) addr.toNat f e)
    (hat : stabAt stabs 0 = some fn)
    (hline : Sunk (keysOf stabs N_SLINE) (addr - fn.n_value).toNat 0 h) : LineBelow stabs addr := by
  have hfirst : f = 1 := by omega
  subst hfirst
  obtain ⟨w, hw, hwle⟩ := hfun.keyed
  obtain ⟨v, hv, hvle⟩ := hline.keyed
  obtain ⟨stab₁, hat₁, htype₁, hvalue₁⟩ := keysOf_some hw
  obtain ⟨stab₀, hat₀, htype₀, hvalue₀⟩ := keysOf_some hv
  cases hat.symm.trans hat₀
  have hnone : ∀ i, 0 ≤ i → i ≤ 1 → keysOf stabs N_SO i = none := by
    intro i hi hie
    rcases (show i = 0 ∨ i = 1 by omega) with rfl | rfl
    · exact keysOf_other hat₀ (by rw [htype₀]; decide)
    · exact keysOf_other hat₁ (by rw [htype₁]; decide)
  obtain ⟨hend, rfl, hmeets⟩ :=
    stabBinsearch_unkeyed (Int.le_refl 0) hhi hfile hf hfe hnone
  have hvlt := fn.n_value.isLt
  have hwlt := stab₁.n_value.isLt
  have hoffset : (addr - fn.n_value).toNat = addr.toNat - fn.n_value.toNat :=
    BitVec.toNat_sub_of_le (BitVec.le_def.mpr (by omega))
  refine ⟨by omega, hmeets, ?_, v, hv, by omega⟩
  rw [hw]
  congr 1
  omega

/-- The file search that does not sink gives stab 0 or a file in the table. -/
theorem file_place {stabs : List Stab} {addr : Word}
    (hkept : ¬ Sunk (keysOf stabs N_SO) addr.toNat 0 (stabs.length - 1)) :
    ∃ f e, stabBinsearch stabs 0 (stabs.length - 1) N_SO addr = some (f, e) ∧
      (f = 0 ∨ (0 < f ∧ f ≤ e ∧ e < stabs.length)) := by
  have hhi : (stabs.length : Int) - 1 < stabs.length := by omega
  rcases keyed_or_none (keysOf stabs N_SO) 0 (stabs.length - 1) with hnone | ⟨hle, hsome⟩
  · exact ⟨0, 0 - 1, stabBinsearch_absent (Int.le_refl 0) hhi hnone addr, .inl rfl⟩
  · obtain ⟨f, e, hfound, _, he, _, hmatch⟩ :=
      stabBinsearch_ranged addr (Int.le_refl 0) hle hhi
    have hf := stabBinsearch_kept (Int.le_refl 0) hle hhi hkept hfound
    have hfe := hmatch.mpr hsome
    exact ⟨f, e, hfound, by omega⟩

/-- Unless a search is sent below the table, `debuginfo_eip` comes to an end. -/
theorem debuginfoEip_total {stabs : List Stab} {stabstr : List Byte} {addr : Word}
    (hulim : ULIM ≤ addr) (hterm : stabstr.getLast? = some 0)
    (hinside : ¬ ReadsBelow stabs addr) : ReadsInside stabs stabstr addr := by
  obtain ⟨hkept, hline⟩ := not_or.mp hinside
  obtain ⟨f, e, hfile, rfl | ⟨hf, hfe, he⟩⟩ := file_place hkept
  · exact ⟨_, debuginfoEip_noFile hulim hterm hfile⟩
  · have hlo : 0 ≤ f := Int.le_of_lt hf
    obtain ⟨g, h, hfun, hg, hh, _, _⟩ :=
      @stabBinsearch_ranged stabs N_FUN f e addr hlo hfe he
    rw [ReadsInside, debuginfoEip_eq hterm hulim (by omega) hfile hfun]
    by_cases hgh : g ≤ h
    · obtain ⟨fn, hat⟩ := stabAt_inside stabs (show 0 ≤ g by omega) (by omega)
      have hrun : ∃ r, functionInfo stabs stabstr (unknownInfo addr) addr f e g h = some r ∧
          r.2 = (addr - fn.n_value, g, h) := by
        simp only [functionInfo, hgh, if_true, hat, Option.bind_eq_bind, Option.bind_some]
        exact ⟨_, rfl, rfl⟩
      obtain ⟨r, hrun, hr⟩ := hrun
      obtain ⟨n, hfind, _⟩ := strfind_inside hterm (functionInfo_name hrun trivial)
      obtain ⟨a, b, hsearch, ha, hb, _, _⟩ :=
        @stabBinsearch_ranged stabs N_SLINE g h (addr - fn.n_value) (by omega) hgh (by omega)
      rw [hrun, Option.bind_some, hfind, Option.bind_some, hr]
      refine lineInfo_total stabstr _ hlo (by omega) (by omega) hsearch ?_ (by omega)
      intro hab
      by_contra hneg
      have hfirst : g = 0 := by omega
      subst hfirst
      have hsunkFun : Sunk (keysOf stabs N_FUN) addr.toNat f e := by
        by_contra hkept
        have hge := stabBinsearch_kept hlo hfe he hkept hfun
        omega
      have hsunkLine : Sunk (keysOf stabs N_SLINE) (addr - fn.n_value).toNat 0 h := by
        by_contra hkept
        exact hneg (stabBinsearch_kept (Int.le_refl 0) hgh (by omega) hkept hsearch)
      exact hline (lineBelow_of_sunk (by omega) hf hfe hfile hg hsunkFun hat hsunkLine)
    · have hrun : functionInfo stabs stabstr (unknownInfo addr) addr f e g h =
          some (unknownInfo addr, addr, f, e) := if_neg hgh
      obtain ⟨a, b, hsearch, ha, hb, _, _⟩ :=
        @stabBinsearch_ranged stabs N_SLINE f e addr hlo hfe he
      rw [hrun, Option.bind_some, show (unknownInfo addr).eip_fn_name = Text.unknown from rfl,
        strfind_unknown, Option.bind_some]
      exact lineInfo_total stabstr _ hlo (by omega) (by omega) hsearch (fun _ => by omega) (by omega)

/-- The stabs that are read are all in the table unless a search is sent below it. -/
theorem debuginfoEip_reads_iff {stabs : List Stab} {stabstr : List Byte} {addr : Word}
    (hulim : ULIM ≤ addr) :
    ReadsInside stabs stabstr addr ↔ stabstr.getLast? ≠ some 0 ∨ ¬ ReadsBelow stabs addr := by
  constructor
  · rintro ⟨outcome, hrun⟩
    rw [or_iff_not_imp_left, not_not]
    rintro hterm (hfile | hline)
    · cases hrun.symm.trans (debuginfoEip_file_outside hulim hterm hfile)
    · cases hrun.symm.trans (debuginfoEip_line_outside hulim hterm hline)
  · intro hcond
    by_cases hterm : stabstr.getLast? = some 0
    · exact debuginfoEip_total hulim hterm (hcond.resolve_left (not_not.mpr hterm))
    · exact ⟨_, debuginfoEip_unterminated hulim hterm⟩

/-! ## A file that starts above the address -/

def oneFile : List Stab := [⟨1, N_SO, 0, 0xF0100010⟩]

/-- Below its only file `debuginfo_eip` goes on to search stab `-1`. -/
theorem debuginfoEip_reads_below :
    ¬ ∀ (stabs : List Stab) (stabstr : List Byte) (addr : Word), ULIM ≤ addr →
      ReadsInside stabs stabstr addr := by
  intro hall
  obtain ⟨outcome, hrun⟩ := hall oneFile [0] 0xF0100000 (by decide)
  have hstuck : debuginfoEip oneFile [0] 0xF0100000 = none := rfl
  cases hstuck.symm.trans hrun

theorem debuginfoEip_reads_iff_oneFile :
    ReadsInside oneFile [0] 0xF0100010 ↔
      [(0 : Byte)].getLast? ≠ some 0 ∨ ¬ ReadsBelow oneFile 0xF0100010 :=
  debuginfoEip_reads_iff (by decide)

end JOSKernel.Kern.KdebugReads
