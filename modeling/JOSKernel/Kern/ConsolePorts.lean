import JOSKernel.Kern.ConsoleOutput

/-!
# The serial and the parallel port of the console

`cons_putc` sends a character to both ports before it draws it.  A tab is drawn
by five calls back into `cons_putc`, and so the ports get five spaces as well.
-/

namespace JOSKernel.Kern.ConsolePorts

open JOSKernel.General.MachineInt
open JOSKernel.Kern.ConsoleOutput

/-- The parallel data port. -/
def LPT1 : Nat := 0x378

/-- The two ports that carry the characters. -/
inductive DataPort : Nat → Prop
  | serial : DataPort COM1
  | parallel : DataPort LPT1

/-- The bytes sent to one port. -/
def sentTo (port : Nat) (outbs : List (Nat × Byte)) : List Byte :=
  (outbs.filter fun out => out.1 == port).map Prod.snd

theorem sentTo_append (port : Nat) (outbs outbs' : List (Nat × Byte)) :
    sentTo port (outbs ++ outbs') = sentTo port outbs ++ sentTo port outbs' := by
  simp [sentTo]

/-- From `st` to `st'` exactly `sent` goes to the port. -/
def Sends (port : Nat) (st st' : Console) (sent : List Byte) : Prop :=
  sentTo port st'.outbs = sentTo port st.outbs ++ sent

namespace Sends

variable {port : Nat} {st st' st'' : Console} {sent sent' : List Byte}

theorem refl (port : Nat) (st : Console) : Sends port st st [] :=
  (List.append_nil _).symm

theorem trans (h : Sends port st st' sent) (h' : Sends port st' st'' sent') :
    Sends port st st'' (sent ++ sent') := by
  rw [Sends, h', h, List.append_assoc]

/-- Nothing goes to any port. -/
theorem of_same (h : st'.outbs = st.outbs) : Sends port st st' [] := by
  rw [Sends, h, List.append_nil]

theorem of_outbs {outbs : List (Nat × Byte)} (h : st'.outbs = st.outbs ++ outbs) :
    Sends port st st' (sentTo port outbs) := by
  rw [Sends, h, sentTo_append]

end Sends

/-! ## One character -/

theorem waitReady_outbs (port : Nat) (mask : Byte) (tries : Nat) (st : Console) :
    (waitReady port mask tries st).outbs = st.outbs := by
  induction tries generalizing st with
  | zero => rfl
  | succ tries ih =>
      rw [waitReady]
      dsimp only
      split
      · rfl
      · exact ih _

/-- Each of the two ports gets the low byte once. -/
theorem ports_send {port : Nat} (hport : DataPort port) (c : Word) (st : Console) :
    Sends port st (lptPutc c (serialPutc c st)) [c.setWidth 8] := by
  have houtbs : (lptPutc c (serialPutc c st)).outbs = st.outbs ++
      [(COM1, c.setWidth 8), (LPT1, c.setWidth 8), (LPT1 + 2, 0x0D), (LPT1 + 2, 0x08)] := by
    simp [lptPutc, serialPutc, outb, waitReady_outbs, LPT1]
  have hsends := @Sends.of_outbs port _ _ _ houtbs
  cases hport with
  | serial => exact hsends
  | parallel => exact hsends

theorem scrollIfFull_outbs (st : Console) : (scrollIfFull st).outbs = st.outbs := by
  rw [scrollIfFull_eq]
  split <;> rfl

/-- The cursor registers are other ports. -/
theorem finish_sends {port : Nat} (hport : DataPort port) (st : Console) :
    Sends port st (moveCursor (scrollIfFull st)) [] := by
  have houtbs := moveCursor_outbs (scrollIfFull st)
  rw [scrollIfFull_outbs] at houtbs
  have hsends := @Sends.of_outbs port _ _ _ houtbs
  have hnone : sentTo port (cursorWrites (moveCursor (scrollIfFull st)).adapter
      (moveCursor (scrollIfFull st)).crtPos) = [] := by
    cases hport <;> cases (moveCursor (scrollIfFull st)).adapter <;> rfl
  rwa [hnone] at hsends

/-- No character but a tab sends anything while it is drawn. -/
theorem putCharacter_outbs (consPutc : Word → Console → Console) {c : Word}
    (hc : c &&& 0xFF ≠ 0x09) (st : Console) : (putCharacter consPutc c st).outbs = st.outbs := by
  rw [putCharacter, Surface.putCharacter]
  split
  · split <;> rfl
  · split
    · rfl
    · split
      · rfl
      · rfl

theorem cgaPutcWith_sends (consPutc : Word → Console → Console) {port : Nat}
    (hport : DataPort port) {c : Word} (hc : attributed c &&& 0xFF ≠ 0x09) (st : Console) :
    Sends port st (cgaPutcWith consPutc c st) [] :=
  (Sends.of_same (putCharacter_outbs consPutc hc st)).trans (finish_sends hport _)

theorem low_eq (c : Word) : c &&& 0xFF = ofUChar (c.setWidth 8) := by
  have hmask : (0xFF : Word) = (BitVec.allOnes 8).setWidth 32 := rfl
  refine BitVec.eq_of_getLsbD_eq fun i hi => ?_
  rw [hmask, ofUChar]
  simp only [BitVec.getLsbD_and, BitVec.getLsbD_setWidth, BitVec.getLsbD_allOnes]
  cases c.getLsbD i <;> simp

/-- The attribute is not part of the low byte. -/
theorem attributed_low (c : Word) : (attributed c).setWidth 8 = (c.setWidth 8 : Byte) := by
  have hattribute : (0x0700 : Word).setWidth 8 = (0 : Byte) := rfl
  rw [attributed]
  split
  · rw [BitVec.setWidth_or, hattribute]
    simp
  · rfl

theorem tab_iff (c : Word) : attributed c &&& 0xFF = 0x09 ↔ c.setWidth 8 = (0x09 : Byte) := by
  rw [low_eq, attributed_low]
  constructor
  · intro h
    have hlow := congrArg (fun w : Word => (w.setWidth 8 : Byte)) h
    simpa [ofUChar] using hlow
  · intro h
    rw [h]
    rfl

/-- What one character sends: its low byte, and five spaces for a tab. -/
def portBytes (c : Word) : List Byte :=
  if c.setWidth 8 = (0x09 : Byte) then [0x09, 0x20, 0x20, 0x20, 0x20, 0x20] else [c.setWidth 8]

theorem consPutc_plain_sends {port : Nat} (hport : DataPort port) {c : Word}
    (hc : c.setWidth 8 ≠ (0x09 : Byte)) (st : Console) :
    Sends port st (consPutc c st) [c.setWidth 8] := by
  have hdraw := cgaPutcWith_sends (consPutcWith (cgaPutcWith fun _ st => st)) hport
    (fun htab => hc ((tab_iff c).mp htab)) (lptPutc c (serialPutc c st))
  exact (ports_send hport c st).trans hdraw

theorem consPutc_sends {port : Nat} (hport : DataPort port) (c : Word) (st : Console) :
    Sends port st (consPutc c st) (portBytes c) := by
  by_cases hc : c.setWidth 8 = (0x09 : Byte)
  · have hspace (st : Console) : Sends port st (consPutc 0x20 st) [0x20] :=
      consPutc_plain_sends hport (by decide) st
    have hports := ports_send hport c st
    have htab := (tab_iff c).mpr hc
    rw [portBytes, if_pos hc, consPutc, consPutcWith_eq, cgaPutc_nested,
      cgaPutcWith_eq, putCharacter_tab consPutc htab]
    rw [hc] at hports
    exact hports.trans ((hspace _).trans ((hspace _).trans ((hspace _).trans ((hspace _).trans
      ((hspace _).trans (finish_sends hport _))))))
  · rw [portBytes, if_neg hc]
    exact consPutc_plain_sends hport hc st

/-! ## Sequences of characters -/

/-- A sequence of calls of `cputchar`. -/
def cputchars (cs : List Word) (st : Console) : Console := cs.foldl (fun st c => cputchar c st) st

/-- Both ports get the low bytes of the characters, each once and in order. -/
def SendsText (cs : List Word) (st : Console) : Prop :=
  ∀ port, DataPort port → Sends port st (cputchars cs st) (cs.map fun c => c.setWidth 8)

theorem cputchars_sends {port : Nat} (hport : DataPort port) (cs : List Word) (st : Console) :
    Sends port st (cputchars cs st) (cs.flatMap portBytes) := by
  induction cs generalizing st with
  | nil => exact Sends.refl port st
  | cons c cs ih =>
      rw [List.flatMap_cons]
      exact (consPutc_sends hport c st).trans (ih (cputchar c st))

theorem length_le_portBytes (cs : List Word) : cs.length ≤ (cs.flatMap portBytes).length := by
  induction cs with
  | nil => exact Nat.le_refl 0
  | cons c cs ih =>
      rw [List.flatMap_cons, List.length_append, List.length_cons, portBytes]
      split
      · simp only [List.length_cons, List.length_nil]
        omega
      · rw [List.length_singleton]
        omega

/-- The bytes sent are the low bytes unless a tab adds to them. -/
theorem portBytes_eq_iff (cs : List Word) :
    cs.flatMap portBytes = (cs.map fun c => c.setWidth 8) ↔
      ∀ c ∈ cs, c.setWidth 8 ≠ (0x09 : Byte) := by
  induction cs with
  | nil => simp
  | cons c cs ih =>
      rw [List.flatMap_cons, List.map_cons, List.forall_mem_cons, ← ih, portBytes]
      by_cases hc : c.setWidth 8 = (0x09 : Byte)
      · rw [if_pos hc]
        refine iff_of_false ?_ fun h => h.1 hc
        intro hbytes
        have hlength := congrArg List.length hbytes
        have hle := length_le_portBytes cs
        simp only [List.length_append, List.length_cons, List.length_nil, List.length_map] at hlength
        omega
      · rw [if_neg hc, List.singleton_append, List.cons.injEq]
        exact ⟨fun h => ⟨hc, h.2⟩, fun h => ⟨rfl, h.2⟩⟩

/-- The ports get exactly the text when there is no tab in it. -/
theorem sendsText_iff (cs : List Word) (st : Console) :
    SendsText cs st ↔ ∀ c ∈ cs, c.setWidth 8 ≠ (0x09 : Byte) := by
  rw [← portBytes_eq_iff]
  constructor
  · intro htext
    have hsent := cputchars_sends .serial cs st
    exact List.append_cancel_left (hsent.symm.trans (htext COM1 .serial))
  · intro hbytes port hport
    rw [← hbytes]
    exact cputchars_sends hport cs st

/-- A tab does not arrive as a tab alone. -/
theorem tab_not_sent_alone : ¬ ∀ (cs : List Word) (st : Console), SendsText cs st := by
  intro hall
  have htext := hall [0x09] ⟨fun _ => 0, fun _ _ => 0, [], .cga, 0⟩ COM1 .serial
  have hsent := cputchars_sends .serial [0x09] ⟨fun _ => 0, fun _ _ => 0, [], .cga, 0⟩
  have hbytes := List.append_cancel_left (hsent.symm.trans htext)
  exact absurd hbytes (by decide)

end JOSKernel.Kern.ConsolePorts
