import JOSKernel.Kern.KdebugArgs
import JOSKernel.Kern.Printf
import JOSKernel.Lib.FormatText

/-!
# The stack backtrace (`kern/monitor.c`)

`mon_backtrace` follows the saved frame pointers and prints two lines for each
frame.  One record of debug information serves all the frames.
-/

namespace JOSKernel.Kern.Monitor

open JOSKernel.General.MachineInt
open JOSKernel.General.ByteMemory
open JOSKernel.Kern.ConsoleOutput
open JOSKernel.Kern.Kdebug
open JOSKernel.Kern.KdebugArgs
open JOSKernel.Kern.KdebugReads
open JOSKernel.Kern.Printf
open JOSKernel.Kern.StabBinsearch
open JOSKernel.Lib.FormatText
open JOSKernel.Lib.NumberText
open JOSKernel.Lib.Printfmt
open JOSKernel.Lib.StringRoutines

/-- The debugging sections of the kernel, which `kern/kernel.ld` places behind
its link address. -/
structure DebugImage where
  stabs : List Stab
  stabstr : List Byte
  stabstrBegin : Word
  linked : 0xF0100000 ≤ stabstrBegin.toNat
  fits : stabstrBegin.toNat + stabstr.length ≤ 4294967296

/-- The value of a text pointer. -/
def DebugImage.pointer (image : DebugImage) : Text → Word
  | .unknown => literalAddr
  | .entry n_strx => image.stabstrBegin + BitVec.ofNat 32 n_strx

/-- A text pointer as an argument. -/
def DebugImage.arg (image : DebugImage) (text : Text) : Arg :=
  .ptr (image.pointer text) (text.readable image.stabstr)

/-- The read `*((uintptr_t *)ebp + i)`. -/
def stackWord (stack : Memory) (ebp : Word) (i : Nat) : Word :=
  BitVec.ofNat 32 (readLE stack (ebp + BitVec.ofNat 32 (4 * i)).toNat 4)

/-- The body of the loop.  A panic does not come back to it. -/
def printFrame (image : DebugImage) (stack : Memory) (ebp : Word) (eipinfo : Eipdebuginfo)
    (st : Console) : Option (Eipdebuginfo × Console) := do
  let eip := stackWord stack ebp 1
  match ← debuginfoEipInto image.stabs image.stabstr eip eipinfo with
  | .panic => none
  | .ret _ eipinfo => do
      let (_, st) ← cprintf
        (cstr (bytes "  ebp %08x  eip %08x  args %08x %08x %08x %08x %08x" ++ [10]))
        [.int ebp, .int eip, .int (stackWord stack ebp 2), .int (stackWord stack ebp 3),
          .int (stackWord stack ebp 4), .int (stackWord stack ebp 5), .int (stackWord stack ebp 6)] st
      let (_, st) ← cprintf (cstr (bytes "         %s:%d: %.*s+%d" ++ [10]))
        [image.arg eipinfo.eip_file, .int (BitVec.ofInt 32 eipinfo.eip_line),
          .int (BitVec.ofInt 32 eipinfo.eip_fn_namelen), image.arg eipinfo.eip_fn_name,
          .int (eip - eipinfo.eip_fn_addr)] st
      return (eipinfo, st)

def backtraceLoop (image : DebugImage) (stack : Memory) :
    Nat → Word → Eipdebuginfo → Console → Option Console
  | 0, _, _, _ => none
  | fuel + 1, ebp, eipinfo, st =>
      if ebp ≠ 0 then do
        let (eipinfo, st) ← printFrame image stack ebp eipinfo st
        backtraceLoop image stack fuel (stackWord stack ebp 0) eipinfo st
      else some st

/-- `mon_backtrace`, called with the frame pointer `ebp`.  What the record holds
at the start is left over from other calls. -/
def monBacktrace (image : DebugImage) (stack : Memory) (fuel : Nat) (ebp : Word)
    (eipinfo : Eipdebuginfo) (st : Console) : Option (Int × Console) := do
  let (_, st) ← cprintf (cstr (bytes "Stack backtrace:" ++ [10])) [] st
  let st ← backtraceLoop image stack fuel ebp eipinfo st
  return (0, st)

/-! ## Frames and their entries -/

/-- What a frame of the stack holds, and where it is. -/
structure Frame where
  ebp : Word
  eip : Word
  args : List Word

def frameAt (stack : Memory) (ebp : Word) : Frame where
  ebp := ebp
  eip := stackWord stack ebp 1
  args := [2, 3, 4, 5, 6].map (stackWord stack ebp)

/-- The frames that the saved frame pointers visit before they reach 0. -/
inductive Chain (stack : Memory) : Word → List Frame → Prop
  | nil : Chain stack 0 []
  | cons {ebp : Word} {frames : List Frame} : ebp ≠ 0 →
      Chain stack (stackWord stack ebp 0) frames → Chain stack ebp (frameAt stack ebp :: frames)

/-- The first line of an entry. -/
def frameText (frame : Frame) : List Byte :=
  bytes "  ebp " ++ (wordText frame.ebp ++ (bytes "  eip " ++ (wordText frame.eip ++
    (bytes "  args" ++ (frame.args.flatMap (fun arg => bytes " " ++ wordText arg) ++ [10])))))

/-- The text at the file name, up to its NUL. -/
def fileText (image : DebugImage) (info : Eipdebuginfo) : List Byte :=
  (info.eip_file.readable image.stabstr).takeWhile (· ≠ 0)

/-- The first `eip_fn_namelen` bytes at the function name. -/
def functionText (image : DebugImage) (info : Eipdebuginfo) : List Byte :=
  (info.eip_fn_name.readable image.stabstr).take info.eip_fn_namelen.toNat

/-- The second line of an entry. -/
def infoText (image : DebugImage) (eip : Word) (info : Eipdebuginfo) : List Byte :=
  bytes "         " ++ (fileText image info ++ (bytes ":" ++ (signedText info.eip_line ++
    (bytes ": " ++ (functionText image info ++ (bytes "+" ++
      (signedText (eip - info.eip_fn_addr).toInt ++ [10])))))))

def entryText (image : DebugImage) (frame : Frame) (info : Eipdebuginfo) : List Byte :=
  frameText frame ++ infoText image frame.eip info

/-! ## One entry -/

theorem args_prints (args : List Word) :
    Prints (args.flatMap fun _ => bytes " %08x") (args.map .int)
      (args.flatMap fun arg => bytes " " ++ wordText arg) := by
  induction args with
  | nil => exact Prints.plain rfl
  | cons arg args ih =>
      have hblank : Prints (bytes " ") [] (bytes " ") := Prints.plain (by decide)
      exact (hblank.append (Prints.word arg)).append ih

theorem newline_prints : Prints [10] [] [10] := Prints.plain (by decide)

theorem frameText_prints (stack : Memory) (ebp : Word) :
    Prints (bytes "  ebp %08x  eip %08x  args %08x %08x %08x %08x %08x" ++ [10])
      [.int ebp, .int (stackWord stack ebp 1), .int (stackWord stack ebp 2),
        .int (stackWord stack ebp 3), .int (stackWord stack ebp 4), .int (stackWord stack ebp 5),
        .int (stackWord stack ebp 6)] (frameText (frameAt stack ebp)) := by
  have hebp : Prints (bytes "  ebp ") [] (bytes "  ebp ") := Prints.plain (by decide)
  have heip : Prints (bytes "  eip ") [] (bytes "  eip ") := Prints.plain (by decide)
  have hargs : Prints (bytes "  args") [] (bytes "  args") := Prints.plain (by decide)
  exact hebp.append ((Prints.word ebp).append (heip.append ((Prints.word _).append
    (hargs.append ((args_prints (frameAt stack ebp).args).append newline_prints)))))

theorem DebugImage.pointer_ne_zero (image : DebugImage) {text : Text}
    (h : PointsInside image.stabstr text) : image.pointer text ≠ 0 := by
  cases text with
  | unknown => exact (by decide : literalAddr ≠ 0)
  | entry n_strx =>
      have hlinked := image.linked
      have hfits := image.fits
      have hinside : n_strx < image.stabstr.length := h
      have haddr : (image.pointer (.entry n_strx)).toNat = image.stabstrBegin.toNat + n_strx := by
        simp only [DebugImage.pointer, BitVec.toNat_add, BitVec.toNat_ofNat, Nat.reducePow]
        omega
      intro hzero
      rw [hzero, show (0 : Word).toNat = 0 from rfl] at haddr
      omega

/-- No text is so long that an `int` could not count its characters. -/
theorem DebugImage.readable_length_lt (image : DebugImage) (text : Text) :
    (text.readable image.stabstr).length < 2147483648 := by
  have hlinked := image.linked
  have hfits := image.fits
  cases text with
  | unknown => exact (by decide : (cstr (bytes "<unknown>")).length < 2147483648)
  | entry n_strx =>
      rw [Text.readable, List.length_drop]
      omega

/-- A result whose texts can be printed. -/
structure Presentable (image : DebugImage) (info : Eipdebuginfo) : Prop where
  texts : TextsInside image.stabstr info
  file_terminated : 0 ∈ info.eip_file.readable image.stabstr
  line_ge : 0 ≤ info.eip_line
  line_lt : info.eip_line < 65536

theorem text_split {s : List Byte} (hnul : 0 ∈ s) :
    0 ∉ s.takeWhile (· ≠ 0) ∧ ∃ rest, s = s.takeWhile (· ≠ 0) ++ 0 :: rest := by
  constructor
  · intro hmem
    have hne := List.all_eq_true.mp List.all_takeWhile 0 hmem
    cases hne
  · induction s with
    | nil => cases hnul
    | cons ch s ih =>
        by_cases hch : ch = 0
        · subst hch
          exact ⟨s, rfl⟩
        · obtain ⟨rest, hrest⟩ := ih ((List.mem_cons.mp hnul).resolve_left (Ne.symm hch))
          refine ⟨rest, ?_⟩
          rw [List.takeWhile_cons_of_pos (by simpa using hch), List.cons_append, ← hrest]

theorem fileText_split {image : DebugImage} {info : Eipdebuginfo} (h : Presentable image info) :
    0 ∉ fileText image info ∧ ∃ rest,
      info.eip_file.readable image.stabstr = fileText image info ++ 0 :: rest :=
  text_split h.file_terminated

theorem fileText_prints {image : DebugImage} {info : Eipdebuginfo} (h : Presentable image info) :
    Prints (bytes "%s") [image.arg info.eip_file] (fileText image info) := by
  obtain ⟨hnul, rest, hsplit⟩ := fileText_split h
  have hlength := image.readable_length_lt info.eip_file
  rw [hsplit, List.length_append] at hlength
  rw [DebugImage.arg, hsplit]
  exact Prints.string (image.pointer_ne_zero h.texts.file) hnul (by omega) rest

theorem functionText_prints {image : DebugImage} {info : Eipdebuginfo} (h : Presentable image info) :
    Prints (bytes "%.*s")
      [.int (BitVec.ofInt 32 info.eip_fn_namelen), image.arg info.eip_fn_name]
      (functionText image info) := by
  obtain ⟨n, hnamelen, hup⟩ := h.texts.fn_namelen
  obtain ⟨hlength, hnul, stop, rest, hsplit⟩ := hup.split
  have hbound := image.readable_length_lt info.eip_fn_name
  have hlt := hup.lt_length
  have hprints := Prints.string_star (image.pointer_ne_zero h.texts.fn_name) hnul
    (by rw [hlength]; omega) stop rest
  rw [← hsplit, hlength] at hprints
  rw [functionText, hnamelen, Int.toNat_natCast]
  exact hprints

theorem line_prints {image : DebugImage} {info : Eipdebuginfo} (h : Presentable image info) :
    Prints (bytes "%d") [.int (BitVec.ofInt 32 info.eip_line)] (signedText info.eip_line) := by
  have hge := h.line_ge
  have hlt := h.line_lt
  have hprints := Prints.signed (BitVec.ofInt 32 info.eip_line)
  rw [toInt_ofInt_word, int32_of_range (by omega) (by omega)] at hprints
  exact hprints

theorem infoText_prints {image : DebugImage} {info : Eipdebuginfo} (h : Presentable image info)
    (eip : Word) :
    Prints (bytes "         %s:%d: %.*s+%d" ++ [10])
      [image.arg info.eip_file, .int (BitVec.ofInt 32 info.eip_line),
        .int (BitVec.ofInt 32 info.eip_fn_namelen), image.arg info.eip_fn_name,
        .int (eip - info.eip_fn_addr)] (infoText image eip info) := by
  have hindent : Prints (bytes "         ") [] (bytes "         ") := Prints.plain (by decide)
  have hcolon : Prints (bytes ":") [] (bytes ":") := Prints.plain (by decide)
  have hblank : Prints (bytes ": ") [] (bytes ": ") := Prints.plain (by decide)
  have hplus : Prints (bytes "+") [] (bytes "+") := Prints.plain (by decide)
  exact hindent.append ((fileText_prints h).append (hcolon.append ((line_prints h).append
    (hblank.append ((functionText_prints h).append (hplus.append
      ((Prints.signed (eip - info.eip_fn_addr)).append newline_prints)))))))

/-! ## The results of `debuginfo_eip` -/

/-- For a kernel address every call that is defined returns a result that can
be printed, whatever it returns. -/
theorem debuginfoEip_presentable {image : DebugImage} {eip : Word} (hulim : ULIM ≤ eip)
    {outcome : Outcome} (h : debuginfoEip image.stabs image.stabstr eip = some outcome) :
    ∃ code info, outcome = .ret code info ∧ Presentable image info := by
  rcases debuginfoEip_cases h with ⟨huser, _⟩ | rfl |
    ⟨hterm, lfile, rfile, lfun, rfun, r, n, _, _, hr, _, hline⟩
  · exact absurd huser (BitVec.not_lt.mpr hulim)
  · exact ⟨-1, unknownInfo eip, rfl, unknownInfo_texts _ _, readable_unknown _, Int.le_refl 0,
      (by decide : (0 : Int) < 65536)⟩
  · obtain ⟨code, file, line, narg, rfl, _, hkept⟩ := lineInfo_cases hline
    obtain ⟨name, start, hinfo, _⟩ := functionInfo_cases hr
    have htexts := debuginfoEip_texts h
    have hline : 0 ≤ line ∧ line < 65536 := by
      rcases hkept with rfl | ⟨stab, rfl⟩
      · rw [hinfo]
        exact ⟨Int.le_refl 0, (by decide : (0 : Int) < 65536)⟩
      · have hdesc := stab.n_desc.isLt
        omega
    exact ⟨code, _, rfl, htexts, readable_terminated hterm htexts.file, hline.1, hline.2⟩

/-! ## The whole backtrace -/

/-- What `debuginfo_eip` tells about one frame; the return value is not used. -/
def Describes (image : DebugImage) (frame : Frame) (info : Eipdebuginfo) : Prop :=
  ∃ code, debuginfoEip image.stabs image.stabstr frame.eip = some (.ret code info)

theorem printFrame_eq {image : DebugImage} {stack : Memory} {ebp : Word} {info : Eipdebuginfo}
    (hdescribes : Describes image (frameAt stack ebp) info) (hpresentable : Presentable image info)
    (eipinfo : Eipdebuginfo) (st : Console) :
    printFrame image stack ebp eipinfo st =
      some (info, feed cputchar ((entryText image (frameAt stack ebp) info).map ofChar) st) := by
  obtain ⟨code, hrun⟩ := hdescribes
  have hrun : debuginfoEipInto image.stabs image.stabstr (stackWord stack ebp 1) eipinfo =
      some (.ret code info) := (debuginfoEipInto_eq _ _ _ _).trans hrun
  have hframe := fun st => cprintf_eq (frameText_prints stack ebp).stream_eq st
  have hinfo := fun st =>
    cprintf_eq (infoText_prints hpresentable (stackWord stack ebp 1)).stream_eq st
  rw [printFrame]
  simp only [hrun, hframe, hinfo, Option.bind_eq_bind, Option.bind_some, Option.pure_def]
  rw [entryText, List.map_append, feed_append]
  rfl

/-- The entries of the frames, in the order of the chain. -/
def entries (image : DebugImage) (frames : List Frame) (infos : List Eipdebuginfo) : List Byte :=
  (List.zipWith (entryText image) frames infos).flatten

theorem backtraceLoop_eq {image : DebugImage} {stack : Memory} {ebp : Word} {frames : List Frame}
    (hchain : Chain stack ebp frames) (hulim : ∀ frame ∈ frames, ULIM ≤ frame.eip)
    (hdefined : ∀ frame ∈ frames,
      ∃ outcome, debuginfoEip image.stabs image.stabstr frame.eip = some outcome)
    (eipinfo : Eipdebuginfo) (st : Console) {fuel : Nat} (hfuel : frames.length < fuel) :
    ∃ infos, List.Forall₂ (Describes image) frames infos ∧
      backtraceLoop image stack fuel ebp eipinfo st =
        some (feed cputchar ((entries image frames infos).map ofChar) st) := by
  induction hchain generalizing eipinfo st fuel with
  | nil =>
      obtain ⟨fuel, rfl⟩ := Nat.exists_eq_succ_of_ne_zero (Nat.ne_of_gt hfuel)
      exact ⟨[], .nil, rfl⟩
  | @cons ebp frames hne rest ih =>
      rw [List.forall_mem_cons] at hulim hdefined
      obtain ⟨outcome, hrun⟩ := hdefined.1
      obtain ⟨code, info, rfl, hpresentable⟩ := debuginfoEip_presentable hulim.1 hrun
      have hdescribes : Describes image (frameAt stack ebp) info := ⟨code, hrun⟩
      obtain ⟨fuel, rfl⟩ := Nat.exists_eq_succ_of_ne_zero (Nat.ne_zero_of_lt hfuel)
      have hframe := printFrame_eq hdescribes hpresentable eipinfo st
      obtain ⟨infos, hinfos, hloop⟩ := ih hulim.2 hdefined.2 info
        (feed cputchar ((entryText image (frameAt stack ebp) info).map ofChar) st)
        (Nat.lt_of_succ_lt_succ hfuel)
      refine ⟨info :: infos, .cons hdescribes hinfos, ?_⟩
      rw [backtraceLoop, if_pos hne, hframe]
      simp only [Option.bind_eq_bind, Option.bind_some, hloop]
      rw [entries, entries, List.zipWith_cons_cons, List.flatten_cons, List.map_append, feed_append]

def headingText : List Byte := bytes "Stack backtrace:" ++ [10]

/-- A kernel address about which `debuginfo_eip` is defined. -/
def Knows (image : DebugImage) (eip : Word) : Prop :=
  ULIM ≤ eip ∧ ∃ outcome, debuginfoEip image.stabs image.stabstr eip = some outcome

/-- The heading, and then the loop from a chain of frames that are known. -/
theorem backtrace_prints {image : DebugImage} {stack : Memory} {ebp : Word} {frames : List Frame}
    (hchain : Chain stack ebp frames) (hknown : ∀ frame ∈ frames, Knows image frame.eip)
    (eipinfo : Eipdebuginfo) {depth : Nat} (hdepth : frames.length < depth) (st : Console) :
    ∃ infos, List.Forall₂ (Describes image) frames infos ∧
      monBacktrace image stack depth ebp eipinfo st =
        some (0, feed cputchar ((headingText ++ entries image frames infos).map ofChar) st) := by
  have hheading : Prints (bytes "Stack backtrace:" ++ [10]) [] headingText :=
    Prints.plain (by decide)
  obtain ⟨infos, hinfos, hloop⟩ := backtraceLoop_eq hchain (fun frame h => (hknown frame h).1)
    (fun frame h => (hknown frame h).2) eipinfo (feed cputchar (headingText.map ofChar) st) hdepth
  refine ⟨infos, hinfos, ?_⟩
  rw [monBacktrace, cprintf_eq hheading.stream_eq, List.map_append, feed_append]
  simp only [Option.bind_eq_bind, Option.bind_some, hloop, Option.pure_def]

/-- Along a chain of frames `mon_backtrace` prints its heading and one entry for
each frame, and comes to an end. -/
theorem monBacktrace_entries {image : DebugImage} {stack : Memory} {ebp : Word}
    {frames : List Frame} (hchain : Chain stack ebp frames)
    (hulim : ∀ frame ∈ frames, ULIM ≤ frame.eip)
    (hdefined : ∀ frame ∈ frames,
      ∃ outcome, debuginfoEip image.stabs image.stabstr frame.eip = some outcome)
    (eipinfo : Eipdebuginfo) (st : Console) {fuel : Nat} (hfuel : frames.length < fuel) :
    ∃ infos, List.Forall₂ (Describes image) frames infos ∧
      monBacktrace image stack fuel ebp eipinfo st =
        some (0, feed cputchar ((headingText ++ entries image frames infos).map ofChar) st) := by
  have hknown : ∀ frame ∈ frames, Knows image frame.eip :=
    fun frame h => ⟨hulim frame h, hdefined frame h⟩
  exact backtrace_prints hchain hknown eipinfo hfuel st

/-- A kernel with the stabs of one file. -/
def smallTables : DebugImage where
  stabs := twoParameters
  stabstr := parameterNames
  stabstrBegin := 0xF0105000
  linked := by decide
  fits := by decide

/-- A stack with two frames: the first returns into `f`, the second to an address
below the file. -/
def twoFrames : Memory :=
  storeWord (storeWord (storeWord (storeWord (fun _ => 0) 0xF010F000 0xF010F020)
    0xF010F004 0xF0100004) 0xF010F008 5) 0xF010F024 0xF0000010

/-- The function and the line of the first return address are found, and nothing
about the second. -/
def twoEntries : List Byte :=
  bytes "  ebp f010f000  eip f0100004  args 00000005 00000000 00000000 00000000 00000000\n" ++
    bytes "         a.c:7: f+4\n" ++
    bytes "  ebp f010f020  eip f0000010  args 00000000 00000000 00000000 00000000 00000000\n" ++
    bytes "         <unknown>:0: <unknown>+0\n"

theorem monBacktrace_entries_twoFrames :
    monBacktrace smallTables twoFrames 3 0xF010F000 (unknownInfo 0) idle =
      some (0, feed cputchar ((headingText ++ twoEntries).map ofChar) idle) := by
  have hchain : Chain twoFrames 0xF010F000
      [frameAt twoFrames 0xF010F000, frameAt twoFrames 0xF010F020] :=
    .cons (by decide) (.cons (by decide) .nil)
  have hfirst : debuginfoEip smallTables.stabs smallTables.stabstr
      (frameAt twoFrames 0xF010F000).eip =
        some (.ret 0 ⟨.entry 1, 7, .entry 5, 1, 0xF0100000, 2⟩) := rfl
  have hsecond : debuginfoEip smallTables.stabs smallTables.stabstr
      (frameAt twoFrames 0xF010F020).eip = some (.ret (-1) (unknownInfo 0xF0000010)) := rfl
  have htext : entries smallTables [frameAt twoFrames 0xF010F000, frameAt twoFrames 0xF010F020]
      [⟨.entry 1, 7, .entry 5, 1, 0xF0100000, 2⟩, unknownInfo 0xF0000010] = twoEntries := by
    decide +kernel
  have hulim : ∀ frame ∈ [frameAt twoFrames 0xF010F000, frameAt twoFrames 0xF010F020],
      ULIM ≤ frame.eip := by
    rw [List.forall_mem_cons, List.forall_mem_singleton]
    decide
  have hdefined : ∀ frame ∈ [frameAt twoFrames 0xF010F000, frameAt twoFrames 0xF010F020],
      ∃ outcome, debuginfoEip smallTables.stabs smallTables.stabstr frame.eip = some outcome := by
    rw [List.forall_mem_cons, List.forall_mem_singleton]
    exact ⟨⟨_, hfirst⟩, _, hsecond⟩
  obtain ⟨infos, hinfos, hprints⟩ := monBacktrace_entries hchain hulim hdefined
    (unknownInfo 0) idle (show 2 < 3 by decide)
  cases hinfos with
  | @cons _ first _ _ hdescribes hinfos =>
      cases hinfos with
      | @cons _ second _ _ hdescribes' hinfos =>
          cases hinfos
          obtain ⟨_, hfound⟩ := hdescribes
          obtain ⟨_, hfound'⟩ := hdescribes'
          cases hfirst.symm.trans hfound
          cases hsecond.symm.trans hfound'
          rw [hprints, htext]

end JOSKernel.Kern.Monitor
