import JOSKernel.Kern.StabBinsearch
import JOSKernel.Lib.StringRoutines

/-!
# Debug information about an address (`kern/kdebug.c`)

`debuginfo_eip` searches the stab table three times, each time in the region
that the search before has found: for the source file, for the function in it,
and for the line in the function.
-/

namespace JOSKernel.Kern.Kdebug

open JOSKernel.General.MachineInt
open JOSKernel.General.SparseSearch
open JOSKernel.Lib.StringRoutines
open JOSKernel.Kern.StabBinsearch

def N_FUN : Byte := 0x24

def N_SLINE : Byte := 0x44

def N_SO : Byte := 0x64

def N_SOL : Byte := 0x84

def N_PSYM : Byte := 0xA0

def ULIM : Word := 0xEF800000

/-- A text pointer in the result. -/
inductive Text where
  | unknown
  | entry (n_strx : Nat)

/-- The bytes that are readable from a text pointer. -/
def Text.readable (stabstr : List Byte) : Text → List Byte
  | .unknown => cstr (bytes "<unknown>")
  | .entry n_strx => stabstr.drop n_strx

structure Eipdebuginfo where
  eip_file : Text
  eip_line : Int
  eip_fn_name : Text
  eip_fn_namelen : Int
  eip_fn_addr : Word
  eip_fn_narg : Int

inductive Outcome where
  | panic
  | ret (code : Int) (info : Eipdebuginfo)

/-- What the function stab adds, and where to search for the line. -/
def functionInfo (stabs : List Stab) (stabstr : List Byte) (info : Eipdebuginfo) (addr : Word)
    (lfile rfile lfun rfun : Int) : Option (Eipdebuginfo × Word × Int × Int) :=
  if lfun ≤ rfun then do
    let stab ← stabAt stabs lfun
    let name :=
      if stab.n_strx.toNat < stabstr.length then Text.entry stab.n_strx.toNat
      else info.eip_fn_name
    some ({ info with eip_fn_name := name, eip_fn_addr := stab.n_value },
      addr - stab.n_value, lfun, rfun)
  else
    -- Couldn't find function stab!  Search the whole file for the line number.
    some ({ info with eip_fn_addr := addr }, addr, lfile, rfile)

/-- The stabs at which the search for the filename stops. -/
def namesFile (stab : Stab) : Bool :=
  stab.n_type == N_SOL || (stab.n_type == N_SO && stab.n_value != 0)

/-- The loop that counts the parameter stabs behind the function. -/
def countArgs (stabs : List Stab) (rfun : Int) : Nat → Int → Int → Option Int
  | 0, _, _ => none
  | fuel + 1, lline, narg =>
      if lline < rfun then do
        let stab ← stabAt stabs lline
        if stab.n_type = N_PSYM then countArgs stabs rfun fuel (lline + 1) (narg + 1)
        else some narg
      else some narg

/-- The number of arguments taken by the function, if there is one. -/
def functionArgs (stabs : List Stab) (lfun rfun narg : Int) : Option Int :=
  if lfun < rfun then countArgs stabs rfun ((rfun - lfun).toNat + 1) (lfun + 1) narg else some narg

/-- Search backwards from the line number for the relevant filename stab. -/
def fileInfo (stabs : List Stab) (stabstr : List Byte) (info : Eipdebuginfo) (lfile lline : Int) :
    Option Eipdebuginfo := do
  let lline ← seekBack stabs namesFile lfile lline
  if lline ≥ lfile then do
    let stab ← stabAt stabs lline
    if stab.n_strx.toNat < stabstr.length then
      some { info with eip_file := .entry stab.n_strx.toNat }
    else some info
  else some info

/-- The part of `debuginfo_eip` behind the function name. -/
def lineInfo (stabs : List Stab) (stabstr : List Byte) (info : Eipdebuginfo) (addr : Word)
    (lfile lfun rfun lline rline : Int) : Option Outcome := do
  let (lline, rline) ← stabBinsearch stabs lline rline N_SLINE addr
  if lline > rline then some (.ret (-1) info)
  else do
    let stab ← stabAt stabs lline
    let info ← fileInfo stabs stabstr { info with eip_line := stab.n_desc.toNat } lfile lline
    let narg ← functionArgs stabs lfun rfun info.eip_fn_narg
    some (.ret 0 { info with eip_fn_narg := narg })

def unknownInfo (addr : Word) : Eipdebuginfo where
  eip_file := .unknown
  eip_line := 0
  eip_fn_name := .unknown
  eip_fn_namelen := 9
  eip_fn_addr := addr
  eip_fn_narg := 0

/-- The first assignments, on a record that may have been used before. -/
def initInfo (info : Eipdebuginfo) (addr : Word) : Eipdebuginfo :=
  { info with
    eip_file := .unknown
    eip_line := 0
    eip_fn_name := .unknown
    eip_fn_namelen := 9
    eip_fn_addr := addr
    eip_fn_narg := 0 }

/-- `debuginfo_eip` on the record of its caller. -/
def debuginfoEipInto (stabs : List Stab) (stabstr : List Byte) (addr : Word)
    (info : Eipdebuginfo) : Option Outcome := do
  let info := initInfo info addr
  if addr < ULIM then some .panic
  else if stabstr.getLast? ≠ some 0 then some (.ret (-1) info)
  else do
    let (lfile, rfile) ← stabBinsearch stabs 0 (stabs.length - 1) N_SO addr
    if lfile = 0 then some (.ret (-1) info)
    else do
      let (lfun, rfun) ← stabBinsearch stabs lfile rfile N_FUN addr
      let (info, addr, lline, rline) ←
        functionInfo stabs stabstr info addr lfile rfile lfun rfun
      -- Ignore stuff after the colon.
      let namelen ← strfind (info.eip_fn_name.readable stabstr) (ascii ':')
      lineInfo stabs stabstr { info with eip_fn_namelen := namelen } addr lfile lfun rfun lline rline

/-- `debuginfo_eip` on a new record. -/
def debuginfoEip (stabs : List Stab) (stabstr : List Byte) (addr : Word) : Option Outcome :=
  debuginfoEipInto stabs stabstr addr (unknownInfo addr)

theorem initInfo_eq (info : Eipdebuginfo) (addr : Word) : initInfo info addr = unknownInfo addr :=
  rfl

/-- Nothing that was in the record before is left in it. -/
theorem debuginfoEipInto_eq (stabs : List Stab) (stabstr : List Byte) (addr : Word)
    (info : Eipdebuginfo) :
    debuginfoEipInto stabs stabstr addr info = debuginfoEip stabs stabstr addr := rfl

/-! ## Well-formed tables -/

/-- The tables that a compiler produces, as far as they are searched. -/
structure DebugTables (stabs : List Stab) (stabstr : List Byte) : Prop where
  terminated : stabstr.getLast? = some 0
  strx : ∀ stab ∈ stabs, stab.n_strx.toNat < stabstr.length
  first : keysOf stabs N_SO 0 = none
  file_nonzero : ∀ stab ∈ stabs, stab.n_type = N_SO → stab.n_value ≠ 0
  files : Ordered (keysOf stabs N_SO) 0 (stabs.length - 1)
  functions : ∀ f e, Region (keysOf stabs N_SO) 0 (stabs.length - 1) f e →
    Ordered (keysOf stabs N_FUN) f e
  lines : ∀ f e g h, Region (keysOf stabs N_SO) 0 (stabs.length - 1) f e →
    Region (keysOf stabs N_FUN) f e g h → Ordered (keysOf stabs N_SLINE) g h

/-- What the search for the file has found. -/
structure InFile (stabs : List Stab) (f e : Int) (file : Stab) : Prop where
  pos : 0 < f
  le : f ≤ e
  end_lt : e < stabs.length
  file_at : stabAt stabs f = some file
  file_type : file.n_type = N_SO
  names : namesFile file = true

theorem DebugTables.inFile {stabs : List Stab} {stabstr : List Byte}
    (htables : DebugTables stabs stabstr) {f e : Int}
    (hregion : Region (keysOf stabs N_SO) 0 (stabs.length - 1) f e) :
    ∃ file, InFile stabs f e file := by
  obtain ⟨v, hv⟩ := hregion.keyed
  obtain ⟨file, hat, htype, _⟩ := keysOf_some hv
  have hpos : f ≠ 0 := by
    rintro rfl
    rw [htables.first] at hv
    cases hv
  have hlo := hregion.lo_le
  have hhi := hregion.le_hi
  refine ⟨file, by omega, hregion.first_le, by omega, hat, htype, ?_⟩
  rw [namesFile, htype, bne_iff_ne.mpr (htables.file_nonzero file (stabAt_mem hat) htype)]
  rfl

/-! ## The parts of the function -/

theorem readable_nul {stabstr : List Byte} (hterm : stabstr.getLast? = some 0) {n_strx : Nat}
    (h : n_strx < stabstr.length) : 0 ∈ (Text.entry n_strx).readable stabstr := by
  apply List.mem_of_getLast?
  rw [Text.readable, List.getLast?_drop, if_neg (by omega), hterm]

theorem countArgs_total {stabs : List Stab} {rfun : Int} (hrfun : rfun < stabs.length) {fuel : Nat}
    {lline : Int} (narg : Int) (hlline : 0 ≤ lline) (hfuel : (rfun - lline).toNat < fuel) :
    ∃ k, countArgs stabs rfun fuel lline narg = some k := by
  induction fuel generalizing lline narg with
  | zero => omega
  | succ fuel ih =>
      rw [countArgs]
      by_cases hlt : lline < rfun
      · obtain ⟨stab, hat⟩ := stabAt_inside stabs hlline (by omega)
        rw [if_pos hlt, hat]
        simp only [Option.bind_eq_bind, Option.bind_some]
        by_cases htype : stab.n_type = N_PSYM
        · rw [if_pos htype]
          exact ih (narg + 1) (by omega) (by omega)
        · exact ⟨narg, if_neg htype⟩
      · exact ⟨narg, if_neg hlt⟩

theorem functionArgs_total {stabs : List Stab} {lfun rfun : Int} (hlfun : 0 ≤ lfun)
    (hrfun : rfun < stabs.length) (narg : Int) : ∃ k, functionArgs stabs lfun rfun narg = some k := by
  rw [functionArgs]
  by_cases hargs : lfun < rfun
  · rw [if_pos hargs]
    exact countArgs_total hrfun narg (by omega) (by omega)
  · exact ⟨narg, if_neg hargs⟩

/-- A text is the one that was there before, or one in the string table. -/
def KeptOrEntry (stabstr : List Byte) (before text : Text) : Prop :=
  text = before ∨ ∃ n_strx, n_strx < stabstr.length ∧ text = .entry n_strx

/-- Only the name and the start of the function are set. -/
theorem functionInfo_cases {stabs : List Stab} {stabstr : List Byte} {info : Eipdebuginfo}
    {addr : Word} {lfile rfile lfun rfun : Int} {r : Eipdebuginfo × Word × Int × Int}
    (h : functionInfo stabs stabstr info addr lfile rfile lfun rfun = some r) :
    ∃ name start, r.1 = { info with eip_fn_name := name, eip_fn_addr := start } ∧
      KeptOrEntry stabstr info.eip_fn_name name := by
  rw [functionInfo] at h
  split at h
  · obtain ⟨stab, _, h⟩ := Option.bind_eq_some_iff.mp h
    cases h
    refine ⟨_, _, rfl, ?_⟩
    split
    · rename_i hinside
      exact .inr ⟨_, hinside, rfl⟩
    · exact .inl rfl
  · cases h
    exact ⟨_, _, rfl, .inl rfl⟩

/-- Only the file name is set. -/
theorem fileInfo_cases {stabs : List Stab} {stabstr : List Byte} {info info' : Eipdebuginfo}
    {lfile lline : Int} (h : fileInfo stabs stabstr info lfile lline = some info') :
    ∃ file, info' = { info with eip_file := file } ∧ KeptOrEntry stabstr info.eip_file file := by
  obtain ⟨j, _, h⟩ := Option.bind_eq_some_iff.mp h
  split at h
  · obtain ⟨stab, _, h⟩ := Option.bind_eq_some_iff.mp h
    split at h
    · rename_i hinside
      cases h
      exact ⟨_, rfl, .inr ⟨_, hinside, rfl⟩⟩
    · cases h
      exact ⟨_, rfl, .inl rfl⟩
  · cases h
    exact ⟨_, rfl, .inl rfl⟩

/-- The file, the line and the arguments are set, and the line to a field of a
stab if at all. -/
theorem lineInfo_cases {stabs : List Stab} {stabstr : List Byte} {info : Eipdebuginfo}
    {addr : Word} {lfile lfun rfun lline rline : Int} {outcome : Outcome}
    (h : lineInfo stabs stabstr info addr lfile lfun rfun lline rline = some outcome) :
    ∃ code file line narg,
      outcome = .ret code { info with eip_file := file, eip_line := line, eip_fn_narg := narg } ∧
        KeptOrEntry stabstr info.eip_file file ∧
        (line = info.eip_line ∨ ∃ stab : Stab, line = stab.n_desc.toNat) := by
  obtain ⟨⟨a, b⟩, _, h⟩ := Option.bind_eq_some_iff.mp h
  dsimp only at h
  split at h
  · cases h
    exact ⟨-1, _, _, _, rfl, .inl rfl, .inl rfl⟩
  · obtain ⟨sline, _, h⟩ := Option.bind_eq_some_iff.mp h
    obtain ⟨info₁, hfile, h⟩ := Option.bind_eq_some_iff.mp h
    obtain ⟨k, _, h⟩ := Option.bind_eq_some_iff.mp h
    obtain ⟨file, rfl, hkept⟩ := fileInfo_cases hfile
    cases h
    exact ⟨0, _, _, _, rfl, hkept, .inr ⟨sline, rfl⟩⟩

/-- The fields about the function are not touched any more. -/
structure SameFunction (info info' : Eipdebuginfo) : Prop where
  fn_name : info'.eip_fn_name = info.eip_fn_name
  fn_namelen : info'.eip_fn_namelen = info.eip_fn_namelen
  fn_addr : info'.eip_fn_addr = info.eip_fn_addr

theorem lineInfo_same {stabs : List Stab} {stabstr : List Byte} {info info' : Eipdebuginfo}
    {addr : Word} {lfile lfun rfun lline rline code : Int}
    (h : lineInfo stabs stabstr info addr lfile lfun rfun lline rline = some (.ret code info')) :
    SameFunction info info' := by
  obtain ⟨_, _, _, _, hret, _⟩ := lineInfo_cases h
  cases hret
  exact ⟨rfl, rfl, rfl⟩

/-- The line, and the nearest file name at or before it. -/
structure LineFound (stabs : List Stab) (info : Eipdebuginfo) (lo s : Int) (sline : Stab) (j : Int)
    (file : Stab) : Prop where
  line : info.eip_line = sline.n_desc.toNat
  file_at : stabAt stabs j = some file
  nearest : LastIn (keysWhere stabs namesFile) lo s j file.n_value.toNat
  file : info.eip_file = .entry file.n_strx.toNat

/-- The backward search stops at the stab of the file at the latest. -/
theorem fileInfo_nearest {stabs : List Stab} {stabstr : List Byte}
    (htables : DebugTables stabs stabstr) {lfile rfile s : Int} {filestab : Stab}
    (hfile : InFile stabs lfile rfile filestab) (info : Eipdebuginfo) (hs : lfile ≤ s)
    (hend : s < stabs.length) :
    ∃ j file, fileInfo stabs stabstr info lfile s =
        some { info with eip_file := .entry file.n_strx.toNat } ∧
      stabAt stabs j = some file ∧
        LastIn (keysWhere stabs namesFile) lfile s j file.n_value.toNat := by
  have hpos := hfile.pos
  rcases seekBack_spec stabs namesFile (show 0 ≤ lfile by omega) hend with
    ⟨_, hnone⟩ | ⟨j, file, hseek, hat, _, hlast⟩
  · have hother := hnone lfile (Int.le_refl lfile) hs
    rw [keysWhere_wanted hfile.file_at hfile.names] at hother
    cases hother
  · have hstrx := htables.strx file (stabAt_mem hat)
    refine ⟨j, file, ?_, hat, hlast⟩
    simp only [fileInfo, hseek, hat, hstrx, Option.bind_eq_bind, Option.bind_some, if_true,
      show j ≥ lfile from hlast.l_le]

theorem lineInfo_miss {stabs : List Stab} (stabstr : List Byte) {lline rline a b : Int}
    (info : Eipdebuginfo) {addr : Word} (lfile lfun rfun : Int)
    (hsearch : stabBinsearch stabs lline rline N_SLINE addr = some (a, b)) (hmiss : b < a) :
    lineInfo stabs stabstr info addr lfile lfun rfun lline rline = some (.ret (-1) info) := by
  simp only [lineInfo, hsearch, Option.bind_eq_bind, Option.bind_some]
  exact if_pos hmiss

theorem lineInfo_found {stabs : List Stab} {stabstr : List Byte}
    (htables : DebugTables stabs stabstr) {lfile rfile lfun rfun lline rline a b : Int}
    {filestab : Stab} (hfile : InFile stabs lfile rfile filestab) (info : Eipdebuginfo) {addr : Word}
    (hsearch : stabBinsearch stabs lline rline N_SLINE addr = some (a, b)) (hle : a ≤ b)
    (ha : lfile ≤ a) (hb : b < stabs.length) (hlfun : 0 ≤ lfun) (hrfun : rfun < stabs.length) :
    ∃ info' sline j file, lineInfo stabs stabstr info addr lfile lfun rfun lline rline =
        some (.ret 0 info') ∧ stabAt stabs a = some sline ∧
      LineFound stabs info' lfile a sline j file := by
  have hpos := hfile.pos
  obtain ⟨sline, hsline⟩ := stabAt_inside stabs (show 0 ≤ a by omega) (by omega)
  obtain ⟨j, file, hrun, hat, hlast⟩ := fileInfo_nearest htables hfile
    { info with eip_line := sline.n_desc.toNat } ha (Int.lt_of_le_of_lt hle hb)
  obtain ⟨k, hk⟩ := functionArgs_total hlfun hrfun info.eip_fn_narg
  refine ⟨{ info with
    eip_line := sline.n_desc.toNat
    eip_file := .entry file.n_strx.toNat
    eip_fn_narg := k }, sline, j, file, ?_, hsline, rfl, hat, hlast, rfl⟩
  simp only [lineInfo, hsearch, Option.bind_eq_bind, Option.bind_some, hsline, hrun, hk]
  exact if_neg (by omega)

/-! ## The whole search -/

theorem debuginfoEip_unterminated {stabs : List Stab} {stabstr : List Byte} {addr : Word}
    (hulim : ULIM ≤ addr) (hterm : stabstr.getLast? ≠ some 0) :
    debuginfoEip stabs stabstr addr = some (.ret (-1) (unknownInfo addr)) := by
  have hkernel : ¬ addr < ULIM := BitVec.not_lt.mpr hulim
  rw [debuginfoEip, debuginfoEipInto, initInfo_eq]
  exact (if_neg hkernel).trans (if_pos hterm)

/-- With the tables accepted, the file is searched for and then the rest. -/
theorem debuginfoEip_terminated {stabs : List Stab} {stabstr : List Byte} {addr : Word}
    (hulim : ULIM ≤ addr) (hterm : stabstr.getLast? = some 0) :
    debuginfoEip stabs stabstr addr =
      (stabBinsearch stabs 0 (stabs.length - 1) N_SO addr).bind fun file =>
        if file.1 = 0 then some (.ret (-1) (unknownInfo addr))
        else (stabBinsearch stabs file.1 file.2 N_FUN addr).bind fun fn =>
          (functionInfo stabs stabstr (unknownInfo addr) addr file.1 file.2 fn.1 fn.2).bind fun r =>
            (strfind (r.1.eip_fn_name.readable stabstr) (ascii ':')).bind fun n =>
              lineInfo stabs stabstr { r.1 with eip_fn_namelen := n } r.2.1 file.1 fn.1 fn.2
                r.2.2.1 r.2.2.2 := by
  have hkernel : ¬ addr < ULIM := BitVec.not_lt.mpr hulim
  rw [debuginfoEip, debuginfoEipInto, initInfo_eq]
  exact (if_neg hkernel).trans (if_neg (not_not.mpr hterm))

theorem debuginfoEip_noFile {stabs : List Stab} {stabstr : List Byte} {addr : Word} {e : Int}
    (hulim : ULIM ≤ addr) (hterm : stabstr.getLast? = some 0)
    (hfile : stabBinsearch stabs 0 (stabs.length - 1) N_SO addr = some (0, e)) :
    debuginfoEip stabs stabstr addr = some (.ret (-1) (unknownInfo addr)) := by
  rw [debuginfoEip_terminated hulim hterm, hfile, Option.bind_some]
  exact if_pos rfl

/-- Once the file and the function have been searched for, the rest follows. -/
theorem debuginfoEip_eq {stabs : List Stab} {stabstr : List Byte} {addr : Word}
    (hterm : stabstr.getLast? = some 0) (hulim : ULIM ≤ addr) {f e a b : Int} (hf : f ≠ 0)
    (hfile : stabBinsearch stabs 0 (stabs.length - 1) N_SO addr = some (f, e))
    (hfun : stabBinsearch stabs f e N_FUN addr = some (a, b)) :
    debuginfoEip stabs stabstr addr =
      (functionInfo stabs stabstr (unknownInfo addr) addr f e a b).bind fun r =>
        (strfind (r.1.eip_fn_name.readable stabstr) (ascii ':')).bind fun n =>
          lineInfo stabs stabstr { r.1 with eip_fn_namelen := n } r.2.1 f a b r.2.2.1 r.2.2.2 := by
  rw [debuginfoEip_terminated hulim hterm, hfile, Option.bind_some, if_neg hf, hfun,
    Option.bind_some]

/-- The address is in a function of a file, and at or behind a line of it. -/
structure Located (stabs : List Stab) (addr : Word) (f e g h s t : Int) (fn sline : Stab) :
    Prop where
  file : Contains (keysOf stabs N_SO) 0 (stabs.length - 1) addr.toNat f e
  function : Contains (keysOf stabs N_FUN) f e addr.toNat g h
  function_at : stabAt stabs g = some fn
  line : Contains (keysOf stabs N_SLINE) g h (addr.toNat - fn.n_value.toNat) s t
  line_at : stabAt stabs s = some sline

/-- The address is in a file, and below all its functions. -/
structure BelowFunctions (stabs : List Stab) (addr : Word) (f e : Int) : Prop where
  file : Contains (keysOf stabs N_SO) 0 (stabs.length - 1) addr.toNat f e
  above : ∀ i, f ≤ i → i ≤ e → ∀ v, keysOf stabs N_FUN i = some v → addr.toNat < v

/-- The function stab tells where the function starts and, up to a colon, its
name. -/
structure FunctionFound (stabstr : List Byte) (info : Eipdebuginfo) (addr : Word) (fn : Stab) :
    Prop where
  fn_addr : info.eip_fn_addr = fn.n_value
  fn_addr_le : info.eip_fn_addr ≤ addr
  fn_name : info.eip_fn_name = .entry fn.n_strx.toNat
  fn_namelen : ∃ n : Nat, info.eip_fn_namelen = n ∧
    UpTo (stabstr.drop fn.n_strx.toNat) (ascii ':') n

/-- An address in a function is described by its stabs. -/
def FindsLine (stabs : List Stab) (stabstr : List Byte) (addr : Word) : Prop :=
  ∀ f e g h s t fn sline, Located stabs addr f e g h s t fn sline →
    ∃ info j file, debuginfoEip stabs stabstr addr = some (.ret 0 info) ∧
      FunctionFound stabstr info addr fn ∧ LineFound stabs info 0 s sline j file

/-- Below all functions the name is unknown, the address stands for the start
of the function, and the whole file is searched for the line. -/
def FallsBack (stabs : List Stab) (stabstr : List Byte) (addr : Word) : Prop :=
  ∀ f e, BelowFunctions stabs addr f e →
    ∃ code info, debuginfoEip stabs stabstr addr = some (.ret code info) ∧
      SameFunction (unknownInfo addr) info ∧
      ∃ a b, stabBinsearch stabs f e N_SLINE addr = some (a, b) ∧ (b < a → code = -1) ∧
        (a ≤ b → code = 0 ∧ ∃ sline j file, stabAt stabs a = some sline ∧
          LineFound stabs info f a sline j file)

theorem DebugTables.file_found {stabs : List Stab} {stabstr : List Byte} {addr : Word}
    (htables : DebugTables stabs stabstr) {f e : Int}
    (hclear : ¬ Crowded (keysOf stabs N_SO) addr.toNat 0 (stabs.length - 1))
    (h : Contains (keysOf stabs N_SO) 0 (stabs.length - 1) addr.toNat f e) :
    stabBinsearch stabs 0 (stabs.length - 1) N_SO addr = some (f, e) :=
  stabBinsearch_contains (Int.le_refl 0) (by omega) htables.files hclear h

theorem debuginfoEip_finds_line {stabs : List Stab} {stabstr : List Byte} {addr : Word}
    (htables : DebugTables stabs stabstr) (hulim : ULIM ≤ addr)
    {f e g h s t : Int} {fn sline : Stab} (hloc : Located stabs addr f e g h s t fn sline)
    (hclearFile : ¬ Crowded (keysOf stabs N_SO) addr.toNat 0 (stabs.length - 1))
    (hclearFun : ¬ Crowded (keysOf stabs N_FUN) addr.toNat f e)
    (hclearLine :
      ¬ Crowded (keysOf stabs N_SLINE) (addr.toNat - fn.n_value.toNat) g h) :
    ∃ info j file, debuginfoEip stabs stabstr addr = some (.ret 0 info) ∧
      FunctionFound stabstr info addr fn ∧ LineFound stabs info 0 s sline j file := by
  have hfileRegion := hloc.file.toRegion
  have hfunRegion := hloc.function.toRegion
  obtain ⟨filestab, hin⟩ := htables.inFile hfileRegion
  have hpos := hin.pos
  have hend := hin.end_lt
  have hg := hfunRegion.lo_le
  have hgh := hfunRegion.first_le
  have hh := hfunRegion.le_hi
  have hs := hloc.line.lo_le
  have hst := hloc.line.first_le
  have ht := hloc.line.le_hi
  have hfile := htables.file_found hclearFile hloc.file
  have hfun := stabBinsearch_contains (by omega) (by omega)
    (htables.functions f e hfileRegion) hclearFun hloc.function
  have hle : fn.n_value ≤ addr := by
    obtain ⟨v, hv⟩ := hfunRegion.keyed
    obtain ⟨stab, hat, _, rfl⟩ := keysOf_some hv
    cases hat.symm.trans hloc.function_at
    exact hloc.function.at_most _ hv
  have hoffset : (addr - fn.n_value).toNat = addr.toNat - fn.n_value.toNat :=
    BitVec.toNat_sub_of_le hle
  have hline : stabBinsearch stabs g h N_SLINE (addr - fn.n_value) = some (s, t) := by
    apply stabBinsearch_contains (by omega) (by omega) (htables.lines f e g h hfileRegion hfunRegion)
    · rw [hoffset]
      exact hclearLine
    · rw [hoffset]
      exact hloc.line
  have hstrx := htables.strx fn (stabAt_mem hloc.function_at)
  obtain ⟨n, hname, hupto⟩ := strfind_spec (ascii ':') (readable_nul htables.terminated hstrx)
  obtain ⟨info, sline', j, file, hrun, hat, hlineFound⟩ := lineInfo_found htables hin
    { unknownInfo addr with
      eip_fn_name := .entry fn.n_strx.toNat
      eip_fn_namelen := n
      eip_fn_addr := fn.n_value } hline hst (by omega) (by omega) (show 0 ≤ g by omega)
    (show h < stabs.length by omega)
  have hsame := lineInfo_same hrun
  cases hat.symm.trans hloc.line_at
  refine ⟨info, j, file, ?_, ⟨hsame.fn_addr, ?_, hsame.fn_name, n, hsame.fn_namelen, hupto⟩,
    hlineFound.line, hlineFound.file_at, ?_, hlineFound.file⟩
  · rw [debuginfoEip_eq htables.terminated hulim (by omega) hfile hfun]
    simp only [functionInfo, hgh, if_true, hloc.function_at, hstrx, Option.bind_eq_bind,
      Option.bind_some, hname]
    exact hrun
  · rw [hsame.fn_addr]
    exact hle
  · have hnearest := hlineFound.nearest
    exact ⟨Int.le_trans (by omega) hnearest.l_le, hnearest.le_mid, hnearest.keyed, hnearest.last⟩

theorem strfind_unknown (stabstr : List Byte) :
    strfind (Text.unknown.readable stabstr) (ascii ':') = some 9 := rfl

/-- The search for a function misses only where the file has none. -/
theorem fallsBack_iff {stabs : List Stab} {stabstr : List Byte} {addr : Word}
    (htables : DebugTables stabs stabstr) (hulim : ULIM ≤ addr)
    (hclear : ¬ Crowded (keysOf stabs N_SO) addr.toNat 0 (stabs.length - 1)) :
    FallsBack stabs stabstr addr ↔ ∀ f e, BelowFunctions stabs addr f e →
      ∀ i, f ≤ i → i ≤ e → keysOf stabs N_FUN i = none := by
  constructor
  · intro hfalls f e hbelow i hi hie
    obtain ⟨filestab, hin⟩ := htables.inFile hbelow.file.toRegion
    have hpos := hin.pos
    have hend := hin.end_lt
    have hother : keysOf stabs N_FUN f = none :=
      keysOf_other hin.file_at (by rw [hin.file_type]; decide)
    obtain ⟨a, b, hfun, ha, hb, hmiss⟩ :=
      stabBinsearch_inside addr (by omega) hin.le hend hother
    obtain ⟨code, info, hrun, hsame, _⟩ := hfalls f e hbelow
    have hfile := htables.file_found hclear hbelow.file
    rw [debuginfoEip_eq htables.terminated hulim (by omega) hfile hfun] at hrun
    cases hkey : keysOf stabs N_FUN i with
    | none => rfl
    | some v =>
        have hab := hmiss.mpr ⟨i, v, hi, hie, hkey⟩
        obtain ⟨fn, hat⟩ := stabAt_inside stabs (show 0 ≤ a by omega) (by omega)
        have hstrx := htables.strx fn (stabAt_mem hat)
        simp only [functionInfo, hab, if_true, hat, hstrx, Option.bind_eq_bind,
          Option.bind_some] at hrun
        obtain ⟨n, _, hline⟩ := Option.bind_eq_some_iff.mp hrun
        have hname := (lineInfo_same hline).fn_name.symm.trans hsame.fn_name
        cases hname
  · intro hnone f e hbelow
    obtain ⟨filestab, hin⟩ := htables.inFile hbelow.file.toRegion
    have hpos := hin.pos
    have hend := hin.end_lt
    have hnofun := hnone f e hbelow
    obtain ⟨a, b, hfun, ha, hb, hmiss⟩ := stabBinsearch_inside addr (by omega) hin.le hend
      (hnofun f (Int.le_refl f) hin.le)
    have hab : ¬ a ≤ b := by
      rw [hmiss]
      rintro ⟨i, v, hi, hie, hkey⟩
      rw [hnofun i hi hie] at hkey
      cases hkey
    have hotherLine : keysOf stabs N_SLINE f = none :=
      keysOf_other hin.file_at (by rw [hin.file_type]; decide)
    obtain ⟨a', b', hline, ha', hb', _⟩ :=
      stabBinsearch_inside addr (by omega) hin.le hend hotherLine
    have hfile := htables.file_found hclear hbelow.file
    have hrun := debuginfoEip_eq htables.terminated hulim (by omega) hfile hfun
    simp only [functionInfo, hab, if_false, Option.bind_some] at hrun
    rw [show (unknownInfo addr).eip_fn_name = Text.unknown from rfl, strfind_unknown,
      Option.bind_some] at hrun
    by_cases hfound : a' ≤ b'
    · obtain ⟨info, sline, j, file, hinfo, hat, hlineFound⟩ := lineInfo_found htables hin
        (unknownInfo addr) hline hfound ha' (by omega) (show 0 ≤ a by omega)
        (show b < stabs.length by omega)
      exact ⟨0, info, hrun.trans hinfo, lineInfo_same hinfo, a', b', hline, fun h => by omega,
        fun _ => ⟨rfl, sline, j, file, hat, hlineFound⟩⟩
    · have hinfo := lineInfo_miss stabstr (unknownInfo addr) f a b hline (Int.not_le.mp hfound)
      exact ⟨-1, unknownInfo addr, hrun.trans hinfo, lineInfo_same hinfo, a', b', hline,
        fun _ => rfl, fun h => absurd h hfound⟩

/-! ## When the address is described -/

/-- What `debuginfo_eip` is to tell about an address. -/
def FindsEip (stabs : List Stab) (stabstr : List Byte) (addr : Word) : Prop :=
  FindsLine stabs stabstr addr ∧ FallsBack stabs stabstr addr

/-- No search runs into an entry one above the address that it looks for, and
below the functions of a file there are none. -/
structure SearchesClear (stabs : List Stab) (addr : Word) : Prop where
  file : ¬ Crowded (keysOf stabs N_SO) addr.toNat 0 (stabs.length - 1)
  function : ∀ f e g h s t fn sline, Located stabs addr f e g h s t fn sline →
    ¬ Crowded (keysOf stabs N_FUN) addr.toNat f e
  line : ∀ f e g h s t fn sline, Located stabs addr f e g h s t fn sline →
    ¬ Crowded (keysOf stabs N_SLINE) (addr.toNat - fn.n_value.toNat) g h
  below : ∀ f e, BelowFunctions stabs addr f e →
    ∀ i, f ≤ i → i ≤ e → keysOf stabs N_FUN i = none

/-- With clear searches `debuginfo_eip` describes every kernel address. -/
theorem debuginfoEip_finds {stabs : List Stab} {stabstr : List Byte} {addr : Word}
    (htables : DebugTables stabs stabstr) (hulim : ULIM ≤ addr)
    (hclear : SearchesClear stabs addr) : FindsEip stabs stabstr addr := by
  constructor
  · intro f e g h s t fn sline hloc
    exact debuginfoEip_finds_line htables hulim hloc hclear.file
      (hclear.function f e g h s t fn sline hloc) (hclear.line f e g h s t fn sline hloc)
  · exact (fallsBack_iff htables hulim hclear.file).mpr hclear.below

/-! ## Two functions one byte apart -/

def twoFunctions : List Stab :=
  [⟨0, 0, 0, 0⟩,
    ⟨1, N_SO, 0, 0xF0100000⟩,
    ⟨5, N_FUN, 0, 0xF0100000⟩,
    ⟨0, N_SLINE, 10, 0⟩,
    ⟨10, N_FUN, 0, 0xF0100001⟩,
    ⟨0, N_SLINE, 20, 0⟩]

/-- The file `a.c` and the functions `f` and `g`. -/
def twoNames : List Byte := 0 :: (cstr (bytes "a.c") ++ cstr (bytes "f:F1") ++ cstr (bytes "g:F1"))

theorem twoFunctions_keys {type : Byte} {i : Int} {v : Nat}
    (h : keysOf twoFunctions type i = some v) :
    (type = 0 ∧ i = 0 ∧ v = 0) ∨ (type = N_SO ∧ i = 1 ∧ v = 4027580416) ∨
      (type = N_FUN ∧ i = 2 ∧ v = 4027580416) ∨ (type = N_SLINE ∧ i = 3 ∧ v = 0) ∨
      (type = N_FUN ∧ i = 4 ∧ v = 4027580417) ∨ (type = N_SLINE ∧ i = 5 ∧ v = 0) := by
  obtain ⟨stab, hat, rfl, rfl⟩ := keysOf_some h
  have hbounds := stabAt_bounds hat
  have hi : i = 0 ∨ i = 1 ∨ i = 2 ∨ i = 3 ∨ i = 4 ∨ i = 5 := by
    simp only [twoFunctions, List.length_cons, List.length_nil] at hbounds
    omega
  rcases hi with rfl | rfl | rfl | rfl | rfl | rfl
  all_goals
    cases hat
    decide

theorem twoFunctions_file {i : Int} {v : Nat} (h : keysOf twoFunctions N_SO i = some v) :
    i = 1 ∧ v = 4027580416 := by
  have hkeys := twoFunctions_keys h
  simpa [N_SO, N_FUN, N_SLINE] using hkeys

theorem twoFunctions_function {i : Int} {v : Nat} (h : keysOf twoFunctions N_FUN i = some v) :
    (i = 2 ∧ v = 4027580416) ∨ (i = 4 ∧ v = 4027580417) := by
  have hkeys := twoFunctions_keys h
  simpa [N_SO, N_FUN, N_SLINE] using hkeys

theorem twoFunctions_line {i : Int} {v : Nat} (h : keysOf twoFunctions N_SLINE i = some v) :
    (i = 3 ∧ v = 0) ∨ (i = 5 ∧ v = 0) := by
  have hkeys := twoFunctions_keys h
  simpa [N_SO, N_FUN, N_SLINE] using hkeys

theorem debugTables_twoFunctions : DebugTables twoFunctions twoNames where
  terminated := rfl
  strx := by decide
  first := rfl
  file_nonzero := by decide
  files := by
    intro i j _ _ _ v w hv hw
    have hi := twoFunctions_file hv
    have hj := twoFunctions_file hw
    omega
  functions := by
    intro f e _ i j _ hij _ v w hv hw
    have hi := twoFunctions_function hv
    have hj := twoFunctions_function hw
    omega
  lines := by
    intro f e g h _ _ i j _ _ _ v w hv hw
    have hi := twoFunctions_line hv
    have hj := twoFunctions_line hw
    omega

/-- The one file of the table. -/
theorem twoFunctions_inFile {addr : Word} (haddr : 0xF0100000 ≤ addr.toNat) :
    Contains (keysOf twoFunctions N_SO) 0 (twoFunctions.length - 1) addr.toNat 1 5 where
  lo_le := by decide
  first_le := by decide
  le_hi := by decide
  keyed := ⟨_, rfl⟩
  alone := by
    intro i hi _
    refine Option.eq_none_iff_forall_ne_some.mpr fun v hv => ?_
    have hkey := twoFunctions_file hv
    omega
  next := .inl rfl
  at_most := by
    intro v hv
    have hkey := twoFunctions_file hv
    omega
  greatest := by
    intro i hi _ v hv
    have hkey := twoFunctions_file hv
    omega

theorem located_first : Located twoFunctions 0xF0100000 1 5 2 3 3 3 ⟨5, N_FUN, 0, 0xF0100000⟩
    ⟨0, N_SLINE, 10, 0⟩ where
  file := twoFunctions_inFile (by decide)
  function_at := rfl
  line_at := rfl
  function :=
    { lo_le := by decide
      first_le := by decide
      le_hi := by decide
      keyed := ⟨_, rfl⟩
      alone := by
        intro i hi hle
        refine Option.eq_none_iff_forall_ne_some.mpr fun v hv => ?_
        have hkey := twoFunctions_function hv
        omega
      next := .inr ⟨_, rfl⟩
      at_most := by
        intro v hv
        have hkey := twoFunctions_function hv
        have haddr : (0xF0100000 : Word).toNat = 4027580416 := rfl
        omega
      greatest := by
        intro i hi _ v hv
        have hkey := twoFunctions_function hv
        have haddr : (0xF0100000 : Word).toNat = 4027580416 := rfl
        omega }
  line :=
    { lo_le := by decide
      first_le := by decide
      le_hi := by decide
      keyed := ⟨_, rfl⟩
      alone := by
        intro i hi hle
        omega
      next := .inl rfl
      at_most := by
        intro v hv
        have hkey := twoFunctions_line hv
        omega
      greatest := by
        intro i hi hle
        omega }

/-- At the first byte of `f` the search moves on to `g`, which starts behind it. -/
theorem debuginfoEip_adjacent :
    ¬ ∀ (stabs : List Stab) (stabstr : List Byte) (addr : Word), DebugTables stabs stabstr →
      ULIM ≤ addr → FindsEip stabs stabstr addr := by
  intro hall
  have hfinds := hall twoFunctions twoNames 0xF0100000 debugTables_twoFunctions (by decide)
  obtain ⟨info, j, file, hrun, hfun, _⟩ := hfinds.1 _ _ _ _ _ _ _ _ located_first
  have hcode : debuginfoEip twoFunctions twoNames 0xF0100000 =
      some (.ret 0 ⟨.entry 1, 20, .entry 10, 1, 0xF0100001, 0⟩) := rfl
  cases hcode.symm.trans hrun
  exact absurd hfun.fn_addr (by decide)

theorem searchesClear_second : SearchesClear twoFunctions 0xF0100005 := by
  have haddr : (0xF0100005 : Word).toNat = 4027580421 := rfl
  constructor
  · apply not_crowded_of_absent
    intro i _ _ hkey
    have hfile := twoFunctions_file hkey
    omega
  · intro f e g h s t fn sline hloc
    apply not_crowded_of_absent
    intro i _ _ hkey
    have hfun := twoFunctions_function hkey
    omega
  · intro f e g h s t fn sline hloc
    obtain ⟨v, hv⟩ := hloc.function.keyed
    have hfun := twoFunctions_function hv
    obtain ⟨stab, hat, _, rfl⟩ := keysOf_some hv
    cases hat.symm.trans hloc.function_at
    apply not_crowded_of_absent
    intro i _ _ hkey
    have hline := twoFunctions_line hkey
    omega
  · intro f e hbelow
    obtain ⟨rfl, rfl⟩ := hbelow.file.unique (twoFunctions_inFile (by decide))
    have hfirst := hbelow.above 2 (by decide) (by decide) 4027580416 rfl
    omega

/-- Inside a function all is found. -/
theorem debuginfoEip_finds_second : FindsEip twoFunctions twoNames 0xF0100005 :=
  debuginfoEip_finds debugTables_twoFunctions (by decide) searchesClear_second

end JOSKernel.Kern.Kdebug
