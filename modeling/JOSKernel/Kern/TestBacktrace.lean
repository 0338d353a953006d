import JOSKernel.General.CallStack
import JOSKernel.Kern.Monitor

/-!
# The backtrace test (`kern/init.c`)

`test_backtrace` calls itself with the numbers down to 0 and then prints the
stack.  The kernel is compiled with frame pointers, so each call leaves a frame
that `mon_backtrace` finds.  What calls leave below the stack pointer is not
read again.
-/

namespace JOSKernel.Kern.TestBacktrace

open JOSKernel.General.ByteMemory
open JOSKernel.General.CallStack
open JOSKernel.General.MachineInt
open JOSKernel.Kern.ConsoleOutput
open JOSKernel.Kern.Kdebug
open JOSKernel.Kern.Monitor
open JOSKernel.Kern.Printf
open JOSKernel.Lib.FormatText
open JOSKernel.Lib.NumberText
open JOSKernel.Lib.Printfmt
open JOSKernel.Lib.StringRoutines

/-- Where the compiler puts the calls: the addresses behind them and the room
for the locals of the called functions. -/
structure CallSites where
  again : Word
  mon : Word
  room : Nat
  monRoom : Nat

/-- What `test_backtrace(x)` calls: itself, or `mon_backtrace` in the end. -/
def callInside (image : DebugImage) (sites : CallSites) (eipinfo : Eipdebuginfo) (depth : Nat)
    (testBacktrace : Word → Stack → Console → Option (Memory × Console)) (x : Word) (s : Stack)
    (st : Console) : Option (Memory × Console) :=
  if 0 < x.toInt then testBacktrace (x - 1) (s.call [x - 1] sites.again sites.room) st
  else do
    let s := s.call [0, 0, 0] sites.mon sites.monRoom
    let (_, st) ← monBacktrace image s.mem depth s.ebp eipinfo st
    some (s.mem, st)

/-- `test_backtrace`, in the frame that its call has left. -/
def testBacktrace (image : DebugImage) (sites : CallSites) (eipinfo : Eipdebuginfo) (depth : Nat) :
    Nat → Word → Stack → Console → Option (Memory × Console)
  | 0, _, _, _ => none
  | fuel + 1, x, s, st => do
      let (_, st) ← cprintf (cstr (bytes "entering test_backtrace %d" ++ [10])) [.int x] st
      let (mem, st) ←
        callInside image sites eipinfo depth (testBacktrace image sites eipinfo depth fuel) x s st
      let (_, st) ← cprintf (cstr (bytes "leaving test_backtrace %d" ++ [10])) [.int x] st
      some (mem, st)

/-! ## Chains of frames -/

/-- The frames that start at the frame pointer are all above the stack pointer. -/
structure Framed (s : Stack) (frames : List Frame) : Prop where
  chain : Chain s.mem s.ebp frames
  above : ∀ frame ∈ frames, s.esp.toNat ≤ frame.ebp.toNat
  inside : ∀ frame ∈ frames, frame.ebp.toNat + 28 ≤ 4294967296

theorem stackWord_congr {mem mem' : Memory} {ebp : Word} {i : Nat} (hi : i ≤ 6)
    (hinside : ebp.toNat + 28 ≤ 4294967296) (h : ∀ a, ebp.toNat ≤ a → mem' a = mem a) :
    stackWord mem' ebp i = stackWord mem ebp i := by
  have haddr : (ebp + BitVec.ofNat 32 (4 * i)).toNat = ebp.toNat + 4 * i := by
    rw [BitVec.toNat_add, BitVec.toNat_ofNat]
    simp only [Nat.reducePow]
    omega
  rw [stackWord, stackWord, haddr]
  exact congrArg _ (readLE_congr fun j _ => h _ (by omega))

theorem frameAt_congr {mem mem' : Memory} {ebp : Word} (hinside : ebp.toNat + 28 ≤ 4294967296)
    (h : ∀ a, ebp.toNat ≤ a → mem' a = mem a) : frameAt mem' ebp = frameAt mem ebp := by
  have hword {i : Nat} (hi : i ≤ 6) := stackWord_congr hi hinside h
  simp only [frameAt, List.map_cons, List.map_nil, hword, Nat.reduceLeDiff]

/-- What happens below a chain does not change it. -/
theorem chain_congr {mem mem' : Memory} {ebp : Word} {frames : List Frame} {low : Nat}
    (hchain : Chain mem ebp frames) (habove : ∀ frame ∈ frames, low ≤ frame.ebp.toNat)
    (hinside : ∀ frame ∈ frames, frame.ebp.toNat + 28 ≤ 4294967296)
    (h : ∀ a, low ≤ a → mem' a = mem a) : Chain mem' ebp frames := by
  induction hchain with
  | nil => exact .nil
  | @cons ebp frames hne rest ih =>
      rw [List.forall_mem_cons] at habove hinside
      have hebp : low ≤ ebp.toNat := habove.1
      have hfits : ebp.toNat + 28 ≤ 4294967296 := hinside.1
      have hsame : ∀ a, ebp.toNat ≤ a → mem' a = mem a := fun a ha => h a (Nat.le_trans hebp ha)
      have hsaved : stackWord mem' ebp 0 = stackWord mem ebp 0 :=
        stackWord_congr (by decide) hfits hsame
      rw [← frameAt_congr hfits hsame]
      refine .cons hne ?_
      rw [hsaved]
      exact ih habove.2 hinside.2

/-- A call puts its frame in front of the chain. -/
theorem Framed.call {s : Stack} {frames : List Frame} (h : Framed s frames) {args : List Word}
    {eip : Word} {room : Nat} (hroom : 4 * (args.length + 2) + room < s.esp.toNat)
    (hargs : args ≠ []) (hinside : s.esp.toNat + 16 ≤ 4294967296) :
    ∃ frame, Framed (s.call args eip room) (frame :: frames) ∧ frame.eip = eip ∧
      frame.args.headD 0 = args.headD 0 := by
  have hcalled := call_spec s args eip (Nat.le_of_lt hroom)
  have hebp := hcalled.ebp
  have hesp := hcalled.esp
  obtain ⟨first, others, rfl⟩ := List.exists_cons_of_ne_nil hargs
  rw [List.length_cons] at hebp hroom
  have hword (i : Nat) (hi : i < (s.ebp :: eip :: first :: others).length) :
      stackWord (s.call (first :: others) eip room).mem (s.call (first :: others) eip room).ebp i =
        (s.ebp :: eip :: first :: others)[i] := by
    have haddr : ((s.call (first :: others) eip room).ebp + BitVec.ofNat 32 (4 * i)).toNat =
        (s.call (first :: others) eip room).ebp.toNat + 4 * i := by
      simp only [List.length_cons] at hi
      rw [BitVec.toNat_add, BitVec.toNat_ofNat]
      simp only [Nat.reducePow]
      omega
    rw [stackWord, haddr, hcalled.at_word i hi, BitVec.ofNat_toNat, BitVec.setWidth_eq]
  have hsaved := hword 0 (Nat.succ_pos _)
  have hreturn := hword 1 (Nat.succ_lt_succ (Nat.succ_pos _))
  have harg := hword 2 (Nat.succ_lt_succ (Nat.succ_lt_succ (Nat.succ_pos _)))
  refine ⟨frameAt (s.call (first :: others) eip room).mem (s.call (first :: others) eip room).ebp,
    ⟨?_, ?_, ?_⟩, hreturn, harg⟩
  · refine .cons ?_ ?_
    · intro hzero
      rw [hzero] at hebp hesp
      have hnull : (0 : Word).toNat = 0 := rfl
      omega
    · rw [hsaved]
      exact chain_congr h.chain h.above h.inside hcalled.above
  · rw [List.forall_mem_cons]
    refine ⟨?_, fun frame hframe => ?_⟩
    · show _ ≤ (s.call (first :: others) eip room).ebp.toNat
      omega
    · have hold := h.above frame hframe
      omega
  · rw [List.forall_mem_cons]
    refine ⟨?_, h.inside⟩
    show (s.call (first :: others) eip room).ebp.toNat + 28 ≤ 4294967296
    omega

/-! ## What is printed -/

def enteringText (n : Nat) : List Byte :=
  bytes "entering test_backtrace " ++ (signedText n ++ [10])

def leavingText (n : Nat) : List Byte :=
  bytes "leaving test_backtrace " ++ (signedText n ++ [10])

/-- The text of the calls with `n` and less, around what the innermost one prints. -/
def testText (inner : List Byte) : Nat → List Byte
  | 0 => enteringText 0 ++ (inner ++ leavingText 0)
  | n + 1 => enteringText (n + 1) ++ (testText inner n ++ leavingText (n + 1))

theorem int_toInt {n : Nat} (hn : n < 2147483648) : (BitVec.ofNat 32 n).toInt = n := by
  have hvalue : (BitVec.ofNat 32 n).toNat = n := by
    rw [BitVec.toNat_ofNat, Nat.mod_eq_of_lt (by omega)]
  rw [BitVec.toInt_eq_toNat_of_lt, hvalue]
  rw [hvalue]
  omega

theorem message_prints {text : List Byte} (htext : text.all isPlain = true) {n : Nat}
    (hn : n < 2147483648) :
    Prints (text ++ (bytes "%d" ++ [10])) [.int (BitVec.ofNat 32 n)]
      (text ++ (signedText n ++ [10])) := by
  have hnumber := Prints.signed (BitVec.ofNat 32 n)
  rw [int_toInt hn] at hnumber
  exact (Prints.plain htext).append (hnumber.append newline_prints)

/-- The return address of a frame and its first argument. -/
def Frame.site (frame : Frame) : Word × Word := (frame.eip, frame.args.headD 0)

/-- The calls inside `test_backtrace(n)`, innermost first. -/
def innerCalls (sites : CallSites) (n : Nat) : List (Word × Word) :=
  (sites.mon, 0) :: (List.range n).map fun i => (sites.again, BitVec.ofNat 32 i)

section Test

variable {image : DebugImage} {sites : CallSites} (eipinfo : Eipdebuginfo) {depth : Nat}

/-- A call prints its number before and after what is printed inside. -/
theorem testBacktrace_around {n fuel : Nat} {s : Stack} {st : Console} {mem : Memory}
    {inner : List Byte} (hn : n < 2147483648)
    (hinner : callInside image sites eipinfo depth (testBacktrace image sites eipinfo depth fuel)
      (BitVec.ofNat 32 n) s (feed cputchar ((enteringText n).map ofChar) st) =
        some (mem, feed cputchar (inner.map ofChar)
          (feed cputchar ((enteringText n).map ofChar) st))) :
    testBacktrace image sites eipinfo depth (fuel + 1) (BitVec.ofNat 32 n) s st =
      some (mem, feed cputchar
        ((enteringText n ++ (inner ++ leavingText n)).map ofChar) st) := by
  have hentering : Prints (bytes "entering test_backtrace %d" ++ [10])
      [.int (BitVec.ofNat 32 n)] (enteringText n) := by
    rw [show bytes "entering test_backtrace %d" ++ [10] =
      bytes "entering test_backtrace " ++ (bytes "%d" ++ [10]) by decide]
    exact message_prints (by decide) hn
  have hleaving : Prints (bytes "leaving test_backtrace %d" ++ [10])
      [.int (BitVec.ofNat 32 n)] (leavingText n) := by
    rw [show bytes "leaving test_backtrace %d" ++ [10] =
      bytes "leaving test_backtrace " ++ (bytes "%d" ++ [10]) by decide]
    exact message_prints (by decide) hn
  rw [testBacktrace, cprintf_eq hentering.stream_eq]
  simp only [Option.bind_eq_bind, Option.bind_some, hinner, cprintf_eq hleaving.stream_eq]
  rw [List.map_append, List.map_append, feed_append, feed_append]

/-- In the frame `s'`, and seen from the stack `s`, `test_backtrace(n)` prints
the numbers down to 0 and up again, and between them the backtrace of these
calls and of the frames that led to them. -/
def Tests (image : DebugImage) (sites : CallSites) (eipinfo : Eipdebuginfo) (depth fuel n : Nat)
    (s s' : Stack) (frames : List Frame) (calls : List (Word × Word)) : Prop :=
  ∀ st, ∃ called infos mem, called.map Frame.site = calls ∧
    List.Forall₂ (Describes image) (called ++ frames) infos ∧
    (∀ a, s.esp.toNat ≤ a → mem a = s.mem a) ∧
    testBacktrace image sites eipinfo depth fuel (BitVec.ofNat 32 n) s' st =
      some (mem, feed cputchar
        ((testText (headingText ++ entries image (called ++ frames) infos) n).map ofChar) st)

/-- A call adds its own frame. -/
theorem Tests.called {fuel n : Nat} {s : Stack} {frames : List Frame} {eip : Word}
    {calls : List (Word × Word)} (hframed : Framed s frames)
    (hroom : 12 + sites.room < s.esp.toNat) (hinside : s.esp.toNat + 16 ≤ 4294967296)
    (h : ∀ frame, frame.eip = eip →
      Framed (s.call [BitVec.ofNat 32 n] eip sites.room) (frame :: frames) →
      (s.call [BitVec.ofNat 32 n] eip sites.room).esp.toNat + (12 + sites.room) = s.esp.toNat →
        Tests image sites eipinfo depth fuel n (s.call [BitVec.ofNat 32 n] eip sites.room)
          (s.call [BitVec.ofNat 32 n] eip sites.room) (frame :: frames) calls) :
    Tests image sites eipinfo depth fuel n s (s.call [BitVec.ofNat 32 n] eip sites.room) frames
      (calls ++ [(eip, BitVec.ofNat 32 n)]) := by
  intro st
  have hdown : 4 * ([BitVec.ofNat 32 n].length + 2) + sites.room < s.esp.toNat := hroom
  obtain ⟨frame, hcall, heip, harg⟩ := hframed.call hdown (List.cons_ne_nil _ _) hinside
  have hcalled := call_spec s [BitVec.ofNat 32 n] eip (Nat.le_of_lt hdown)
  have hebp := hcalled.ebp
  have hesp := hcalled.esp
  rw [List.length_singleton] at hebp
  obtain ⟨called, infos, mem, hsites, hinfos, habove, hprints⟩ := h frame heip hcall (by omega) st
  have hframes : called ++ frame :: frames = called ++ [frame] ++ frames := by
    rw [List.append_assoc, List.singleton_append]
  rw [hframes] at hinfos hprints
  refine ⟨called ++ [frame], infos, mem, ?_, hinfos, ?_, hprints⟩
  · rw [List.map_append, hsites, List.map_singleton, Frame.site, heip, harg]
    rfl
  · intro a ha
    rw [habove a (by omega), hcalled.above a ha]

variable (hmon : Knows image sites.mon) (hagain : Knows image sites.again)
include hmon hagain

theorem tests_inside {n fuel : Nat} {s : Stack} {frames : List Frame}
    (hframed : Framed s frames) (hknown : ∀ frame ∈ frames, Knows image frame.eip)
    (hn : n < 2147483648) (hfuel : n < fuel) (hdepth : frames.length + n + 1 < depth)
    (hroom : n * (12 + sites.room) + (20 + sites.monRoom) < s.esp.toNat)
    (hinside : s.esp.toNat + 16 ≤ 4294967296) :
    Tests image sites eipinfo depth fuel n s s frames (innerCalls sites n) := by
  induction n generalizing fuel s frames with
  | zero =>
      intro st
      obtain ⟨fuel, rfl⟩ := Nat.exists_eq_add_of_le' hfuel
      have hdown : 4 * ([0, 0, 0] : List Word).length + 8 + sites.monRoom < s.esp.toNat := by
        rw [Nat.zero_mul, Nat.zero_add] at hroom
        exact hroom
      obtain ⟨frame, hcall, heip, harg⟩ := @Framed.call s frames hframed [0, 0, 0] sites.mon
        sites.monRoom hdown (List.cons_ne_nil _ _) hinside
      have hcalled := call_spec s [0, 0, 0] sites.mon (Nat.le_of_lt hdown)
      have hsite : [frame].map Frame.site = innerCalls sites 0 := by
        rw [List.map_singleton, Frame.site, heip, harg]
        rfl
      have hframes : ∀ f ∈ frame :: frames, Knows image f.eip := by
        rw [List.forall_mem_cons, heip]
        exact ⟨hmon, hknown⟩
      have hlength : (frame :: frames).length < depth := by
        rw [List.length_cons]
        omega
      obtain ⟨infos, hinfos, hprints⟩ := backtrace_prints hcall.chain hframes eipinfo hlength
        (feed cputchar ((enteringText 0).map ofChar) st)
      refine ⟨[frame], infos, _, hsite, hinfos, hcalled.above,
        testBacktrace_around eipinfo hn ?_⟩
      rw [callInside, if_neg (by decide)]
      simp only [hprints, Option.bind_eq_bind, Option.bind_some]
      rfl
  | succ n ih =>
      intro st
      obtain ⟨fuel, rfl⟩ := Nat.exists_eq_add_of_le' (Nat.lt_of_le_of_lt (Nat.zero_le _) hfuel)
      rw [Nat.succ_mul] at hroom
      have hpred : BitVec.ofNat 32 (n + 1) - 1 = BitVec.ofNat 32 n := by
        rw [BitVec.ofNat_add]
        exact BitVec.add_sub_cancel _ 1
      have hdeeper : Tests image sites eipinfo depth fuel n s
          (s.call [BitVec.ofNat 32 n] sites.again sites.room) frames
          (innerCalls sites n ++ [(sites.again, BitVec.ofNat 32 n)]) := by
        refine Tests.called eipinfo hframed (by omega) hinside fun frame heip hcall hesp => ?_
        refine ih hcall ?_ (by omega) (Nat.lt_of_succ_lt_succ hfuel)
          (by rw [List.length_cons]; omega) (by omega) (by omega)
        rw [List.forall_mem_cons, heip]
        exact ⟨hagain, hknown⟩
      obtain ⟨called, infos, mem, hsites, hinfos, habove, hprints⟩ :=
        hdeeper (feed cputchar ((enteringText (n + 1)).map ofChar) st)
      refine ⟨called, infos, mem, ?_, hinfos, habove, testBacktrace_around eipinfo hn ?_⟩
      · rw [hsites, innerCalls, innerCalls, List.range_succ, List.map_append, List.cons_append]
        rfl
      · rw [callInside, int_toInt hn, if_pos (by omega), hpred, hprints]

theorem tests_called {n fuel : Nat} {first : Word} (hfirst : Knows image first) {s : Stack}
    {frames : List Frame} (hframed : Framed s frames)
    (hknown : ∀ frame ∈ frames, Knows image frame.eip) (hn : n < 2147483648) (hfuel : n < fuel)
    (hdepth : frames.length + n + 2 < depth)
    (hroom : (n + 1) * (12 + sites.room) + (20 + sites.monRoom) < s.esp.toNat)
    (hinside : s.esp.toNat + 16 ≤ 4294967296) :
    Tests image sites eipinfo depth fuel n s (s.call [BitVec.ofNat 32 n] first sites.room) frames
      (innerCalls sites n ++ [(first, BitVec.ofNat 32 n)]) := by
  rw [Nat.succ_mul] at hroom
  refine Tests.called eipinfo hframed (by omega) hinside fun frame heip hcall hesp => ?_
  refine tests_inside eipinfo hmon hagain hcall ?_ hn hfuel (by rw [List.length_cons]; omega)
    (by omega) (by omega)
  rw [List.forall_mem_cons, heip]
  exact ⟨hfirst, hknown⟩

/-- Called with `n` out of any chain of frames, `test_backtrace` prints a
backtrace with an entry for `mon_backtrace`, one for each of its own calls from
0 to `n`, and then those of the chain; what lies above the stack pointer stays. -/
theorem testBacktrace_called {n fuel : Nat} {first : Word} (hfirst : Knows image first) {s : Stack}
    {frames : List Frame} (hframed : Framed s frames)
    (hknown : ∀ frame ∈ frames, Knows image frame.eip) (hn : n < 2147483648) (hfuel : n < fuel)
    (hdepth : frames.length + n + 2 < depth)
    (hroom : (n + 1) * (12 + sites.room) + (20 + sites.monRoom) < s.esp.toNat)
    (hinside : s.esp.toNat + 16 ≤ 4294967296) (st : Console) :
    ∃ called infos mem,
      called.map Frame.site = innerCalls sites n ++ [(first, BitVec.ofNat 32 n)] ∧
      List.Forall₂ (Describes image) (called ++ frames) infos ∧
      (∀ a, s.esp.toNat ≤ a → mem a = s.mem a) ∧
      testBacktrace image sites eipinfo depth fuel (BitVec.ofNat 32 n)
          (s.call [BitVec.ofNat 32 n] first sites.room) st =
        some (mem, feed cputchar
          ((testText (headingText ++ entries image (called ++ frames) infos) n).map ofChar) st) :=
  tests_called eipinfo hmon hagain hfirst hframed hknown hn hfuel hdepth hroom hinside st

end Test

/-- Calls that all return to one address. -/
def oneSite : CallSites where
  again := 0xF0F0F0F0
  mon := 0xF0F0F0F0
  room := 8
  monRoom := 64

/-- A kernel without stabs. -/
def noStabs : DebugImage where
  stabs := []
  stabstr := [0]
  stabstrBegin := 0xF0104000
  linked := by decide
  fits := by decide

theorem noStabs_knows : Knows noStabs 0xF0F0F0F0 :=
  ⟨by decide, .ret (-1) (unknownInfo 0xF0F0F0F0), rfl⟩

/-- Two calls on an empty stack. -/
theorem testBacktrace_called_twice :
    ∃ called infos mem,
      called.map Frame.site = innerCalls oneSite 1 ++ [(0xF0F0F0F0, BitVec.ofNat 32 1)] ∧
      List.Forall₂ (Describes noStabs) (called ++ []) infos ∧
      (∀ a, (⟨0xF0110000, 0, fun _ => 0⟩ : Stack).esp.toNat ≤ a → mem a = 0) ∧
      testBacktrace noStabs oneSite (unknownInfo 0) 4 2 (BitVec.ofNat 32 1)
          ((⟨0xF0110000, 0, fun _ => 0⟩ : Stack).call [BitVec.ofNat 32 1] 0xF0F0F0F0 8) idle =
        some (mem, feed cputchar
          ((testText (headingText ++ entries noStabs (called ++ []) infos) 1).map ofChar) idle) := by
  have hframed : Framed (⟨0xF0110000, 0, fun _ => 0⟩ : Stack) [] :=
    ⟨.nil, fun _ h => absurd h List.not_mem_nil, fun _ h => absurd h List.not_mem_nil⟩
  exact testBacktrace_called (unknownInfo 0) noStabs_knows noStabs_knows noStabs_knows hframed
    (fun _ h => absurd h List.not_mem_nil) (by decide) (by decide) (by decide) (by decide)
    (by decide) idle

end JOSKernel.Kern.TestBacktrace
