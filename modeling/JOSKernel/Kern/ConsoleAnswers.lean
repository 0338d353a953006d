import JOSKernel.Kern.ConsolePorts
import JOSKernel.Lib.PrintfmtStream

/-!
# The answers of the devices

Printing polls the status of the ports, but neither the display nor the bytes
sent depend on how often.  Two consoles that differ only in what the devices are
going to answer therefore stay so, and what has been sent is never taken back.
-/

namespace JOSKernel.Kern.ConsoleAnswers

open JOSKernel.General.MachineInt
open JOSKernel.Kern.ConsoleOutput
open JOSKernel.Kern.ConsolePorts
open JOSKernel.Lib.Printfmt

/-! ## Alike up to the answers -/

structure Alike (st st' : Console) : Prop where
  mem_eq : st'.mem = st.mem
  outbs_eq : st'.outbs = st.outbs
  adapter_eq : st'.adapter = st.adapter
  crtPos_eq : st'.crtPos = st.crtPos

namespace Alike

variable {st st' st'' : Console}

theorem refl (st : Console) : Alike st st := ⟨rfl, rfl, rfl, rfl⟩

theorem symm (h : Alike st st') : Alike st' st :=
  ⟨h.mem_eq.symm, h.outbs_eq.symm, h.adapter_eq.symm, h.crtPos_eq.symm⟩

theorem trans (h : Alike st st') (h' : Alike st' st'') : Alike st st'' :=
  ⟨h'.mem_eq.trans h.mem_eq, h'.outbs_eq.trans h.outbs_eq, h'.adapter_eq.trans h.adapter_eq,
    h'.crtPos_eq.trans h.crtPos_eq⟩

theorem inb (port : Nat) (st : Console) : Alike st (inb port st).2 := ⟨rfl, rfl, rfl, rfl⟩

theorem waitReady (port : Nat) (mask : Byte) (tries : Nat) (st : Console) :
    Alike st (waitReady port mask tries st) where
  mem_eq := (waitReady_sameDisplay port mask tries st).mem_eq
  outbs_eq := waitReady_outbs port mask tries st
  adapter_eq := (waitReady_sameDisplay port mask tries st).adapter_eq
  crtPos_eq := (waitReady_sameDisplay port mask tries st).crtPos_eq

theorem outb (h : Alike st st') (port : Nat) (data : Byte) :
    Alike (outb port data st) (outb port data st') where
  mem_eq := h.mem_eq
  outbs_eq := congrArg (· ++ [(port, data)]) h.outbs_eq
  adapter_eq := h.adapter_eq
  crtPos_eq := h.crtPos_eq

/-- Polls on both sides. -/
theorem polled (h : Alike st st') (port : Nat) (mask : Byte) (tries : Nat) :
    Alike (ConsoleOutput.waitReady port mask tries st)
      (ConsoleOutput.waitReady port mask tries st') :=
  (waitReady port mask tries st).symm.trans (h.trans (waitReady port mask tries st'))

theorem ports (h : Alike st st') (c : Word) :
    Alike (lptPutc c (serialPutc c st)) (lptPutc c (serialPutc c st')) :=
  (((((h.polled _ _ _).outb _ _).polled _ _ _).outb _ _).outb _ _).outb _ _

/-- Consoles that are alike differ in one field. -/
theorem eq (h : Alike st st') : st' = { st with inbs := st'.inbs } := by
  obtain ⟨mem, inbs, outbs, adapter, crtPos⟩ := st
  obtain ⟨mem', inbs', outbs', adapter', crtPos'⟩ := st'
  obtain ⟨hmem, houtbs, hadapter, hcrtPos⟩ := h
  dsimp only at hmem houtbs hadapter hcrtPos
  rw [hmem, houtbs, hadapter, hcrtPos]

theorem of_inbs (st : Console) (inbs : Nat → Nat → Byte) : Alike st { st with inbs := inbs } :=
  ⟨rfl, rfl, rfl, rfl⟩

theorem putCharacter {consPutc : Word → Console → Console}
    (hcalls : ∀ c st st', Alike st st' → Alike (consPutc c st) (consPutc c st')) (c : Word)
    (h : Alike st st') :
    Alike (putCharacter consPutc c st) (putCharacter consPutc c st') := by
  unfold ConsoleOutput.putCharacter Surface.putCharacter
  split
  · rw [h.crtPos_eq]
    split
    · rw [h.eq]
      exact of_inbs _ _
    · exact h
  · split
    · rw [h.eq]
      exact of_inbs _ _
    · split
      · rw [h.eq]
        exact of_inbs _ _
      · split
        · exact hcalls _ _ _ (hcalls _ _ _ (hcalls _ _ _ (hcalls _ _ _ (hcalls _ _ _ h))))
        · rw [h.eq]
          exact of_inbs _ _

theorem finish (h : Alike st st') :
    Alike (moveCursor (scrollIfFull st)) (moveCursor (scrollIfFull st')) := by
  rw [h.eq, scrollIfFull_eq, scrollIfFull_eq]
  split
  · exact of_inbs _ _
  · exact of_inbs _ _

theorem cgaPutcWith {consPutc : Word → Console → Console}
    (hcalls : ∀ c st st', Alike st st' → Alike (consPutc c st) (consPutc c st')) (c : Word)
    (h : Alike st st') : Alike (cgaPutcWith consPutc c st) (cgaPutcWith consPutc c st') :=
  (h.putCharacter hcalls (attributed c)).finish

theorem cputchar (h : Alike st st') (c : Word) : Alike (cputchar c st) (cputchar c st') := by
  have hinner : ∀ c st st', Alike st st' →
      Alike (consPutcWith (ConsoleOutput.cgaPutcWith fun _ st => st) c st)
        (consPutcWith (ConsoleOutput.cgaPutcWith fun _ st => st) c st') :=
    fun c st st' h => (h.ports c).cgaPutcWith (fun _ _ _ h => h) c
  exact (h.ports c).cgaPutcWith hinner c

theorem feed (h : Alike st st') (out : List Word) :
    Alike (feed ConsoleOutput.cputchar out st) (feed ConsoleOutput.cputchar out st') := by
  induction out generalizing st st' with
  | nil => exact h
  | cons c out ih => exact ih (h.cputchar c)

end Alike

/-! ## What has been sent -/

/-- The ports that characters and the cursor are sent to. -/
def OutputPort (port : Nat) : Prop :=
  port ∈ [COM1, LPT1, LPT1 + 2, 0x3B4, 0x3B5, 0x3D4, 0x3D5]

/-- Everything sent before is still the front of what has been sent, only the
output ports have been sent more, and the devices go on with their answers. -/
structure Extends (st st' : Console) : Prop where
  sent : ∃ outbs, st'.outbs = st.outbs ++ outbs ∧ ∀ out ∈ outbs, OutputPort out.1
  answered : ∃ k, ∀ n, st'.inbs n = st.inbs (n + k)

theorem waitReady_answered (port : Nat) (mask : Byte) (tries : Nat) (st : Console) :
    ∃ k, ∀ n, (waitReady port mask tries st).inbs n = st.inbs (n + k) := by
  induction tries generalizing st with
  | zero => exact ⟨1, fun _ => rfl⟩
  | succ tries ih =>
      rw [waitReady]
      dsimp only
      split
      · exact ⟨1, fun _ => rfl⟩
      · -- the poll and the four reads of the delay
        obtain ⟨k, hk⟩ := ih (delay (inb port st).2)
        exact ⟨k + 5, hk⟩

theorem putCharacter_inbs (consPutc : Word → Console → Console) {c : Word}
    (hc : c &&& 0xFF ≠ 0x09) (st : Console) : (putCharacter consPutc c st).inbs = st.inbs := by
  rw [putCharacter, Surface.putCharacter]
  split
  · split <;> rfl
  · split
    · rfl
    · split
      · rfl
      · rfl

namespace Extends

variable {st st' st'' : Console}

theorem of_same (h : st'.outbs = st.outbs) (hread : st'.inbs = st.inbs) : Extends st st' where
  sent := ⟨[], h.trans (List.append_nil _).symm, fun _ hout => absurd hout List.not_mem_nil⟩
  answered := ⟨0, fun n => by rw [hread, Nat.add_zero]⟩

theorem refl (st : Console) : Extends st st := of_same rfl rfl

theorem trans (h : Extends st st') (h' : Extends st' st'') : Extends st st'' where
  sent := by
    obtain ⟨outbs, hsent, hports⟩ := h.sent
    obtain ⟨outbs', hsent', hports'⟩ := h'.sent
    refine ⟨outbs ++ outbs', ?_, ?_⟩
    · rw [hsent', hsent, List.append_assoc]
    · intro out hout
      exact (List.mem_append.mp hout).elim (hports out) (hports' out)
  answered := by
    obtain ⟨k, hk⟩ := h.answered
    obtain ⟨k', hk'⟩ := h'.answered
    exact ⟨k' + k, fun n => by rw [hk', hk, Nat.add_assoc]⟩

theorem ports (c : Word) (st : Console) : Extends st (lptPutc c (serialPutc c st)) where
  sent := by
    refine ⟨[(COM1, c.setWidth 8), (LPT1, c.setWidth 8), (LPT1 + 2, 0x0D), (LPT1 + 2, 0x08)],
      ?_, ?_⟩
    · simp [lptPutc, serialPutc, outb, waitReady_outbs, LPT1]
    · simp [OutputPort]
  answered := by
    obtain ⟨k, hk⟩ := waitReady_answered (COM1 + 5) 0x20 12800 st
    obtain ⟨k', hk'⟩ := waitReady_answered (0x378 + 1) 0x80 12800 (serialPutc c st)
    exact ⟨k' + k, fun n => (hk' n).trans ((hk (n + k')).trans (by rw [Nat.add_assoc]))⟩

theorem finish (st : Console) : Extends st (moveCursor (scrollIfFull st)) where
  sent := by
    refine ⟨cursorWrites (moveCursor (scrollIfFull st)).adapter
      (moveCursor (scrollIfFull st)).crtPos, ?_, ?_⟩
    · rw [moveCursor_outbs, scrollIfFull_outbs]
    · cases (moveCursor (scrollIfFull st)).adapter
      · simp [cursorWrites, OutputPort, Adapter.addr6845]
      · simp [cursorWrites, OutputPort, Adapter.addr6845]
  answered := by
    refine ⟨0, fun n => ?_⟩
    show (scrollIfFull st).inbs n = st.inbs n
    rw [scrollIfFull_eq]
    split <;> rfl

theorem cgaPutcWith {consPutc : Word → Console → Console}
    (hcalls : ∀ c st, Extends st (consPutc c st)) (c : Word) (st : Console) :
    Extends st (cgaPutcWith consPutc c st) := by
  rw [cgaPutcWith_eq]
  refine trans ?_ (finish _)
  by_cases htab : attributed c &&& 0xFF = 0x09
  · rw [putCharacter_tab consPutc htab]
    exact ((((hcalls _ _).trans (hcalls _ _)).trans (hcalls _ _)).trans (hcalls _ _)).trans
      (hcalls _ _)
  · exact of_same (putCharacter_outbs consPutc htab st) (putCharacter_inbs consPutc htab st)

theorem cputchar (c : Word) (st : Console) : Extends st (cputchar c st) := by
  have hinner : ∀ c st,
      Extends st (consPutcWith (ConsoleOutput.cgaPutcWith fun _ st => st) c st) :=
    fun c st => (ports c st).trans (cgaPutcWith (fun _ st => refl st) c _)
  exact (ports c st).trans (cgaPutcWith hinner c _)

theorem feed (out : List Word) (st : Console) :
    Extends st (feed ConsoleOutput.cputchar out st) := by
  induction out generalizing st with
  | nil => exact refl st
  | cons c out ih => exact (cputchar c st).trans (ih _)

end Extends

end JOSKernel.Kern.ConsoleAnswers
