import JOSKernel.General.LossyQueue
import JOSKernel.Kern.ConsoleInput

/-!
# A full input buffer (`kern/console.c`)

`cons_intr` advances the write index without a look at the read index.  When
`CONSBUFSIZE` characters are unread the indices meet and all of them are gone.
Apart from such blocks every character comes out once and in order.
-/

namespace JOSKernel.Kern.ConsoleLoss

open JOSKernel.General.CircularQueue
open JOSKernel.General.LossyQueue
open JOSKernel.General.MachineInt
open JOSKernel.Kern.ConsoleInput
open JOSKernel.Kern.ConsoleOutput

/-- The queue `q` is what is left in the ring of everything received. -/
structure Accounted (h : History) (q : List Byte) : Prop where
  accounts : Accounts CONSBUFSIZE h.received h.delivered h.kernel.cons q
  nonzero : 0 ∉ h.received

theorem accounted_start (console : Console) (serialExists : Bool) :
    Accounted (History.start (boot console serialExists)) [] where
  accounts := Accounts.start (show 0 < 512 by decide) rfl
  nonzero := List.not_mem_nil

namespace Accounted

variable {h : History} {q : List Byte}

theorem receive (hq : Accounted h q) {cs : List Byte} (hcs : 0 ∉ cs) {k : Kernel}
    (hk : k.cons = cs.foldl (push CONSBUFSIZE) h.kernel.cons) :
    ∃ q', Accounted (h.receive cs k) q' := by
  obtain ⟨q', hq'⟩ := hq.accounts.pushAll cs
  rw [← hk] at hq'
  refine ⟨q', hq', ?_⟩
  intro hmem
  rcases List.mem_append.mp hmem with hold | hnew
  · exact hq.nonzero hold
  · exact hcs hnew

/-- The end of `cons_getc`. -/
theorem take (hq : Accounted h q) :
    q = [] ∧ pop? CONSBUFSIZE h.kernel.cons = none ∨
      ∃ c rest cons, q = c :: rest ∧ c ≠ 0 ∧ pop? CONSBUFSIZE h.kernel.cons = some (c, cons) ∧
        ∀ k, k.cons = cons → Accounted (h.deliver c k) rest := by
  rcases hq.accounts.pop? with hempty | ⟨c, rest, cons, rfl, hpop, hrest⟩
  · exact .inl hempty
  · obtain ⟨gone, hreceived, _⟩ := hq.accounts.gone
    have hc : c ≠ 0 := by
      rintro rfl
      apply hq.nonzero
      rw [hreceived]
      exact List.mem_append_right _ List.mem_cons_self
    refine .inr ⟨c, rest, cons, rfl, hc, hpop, ?_⟩
    rintro k rfl
    constructor
    · show Accounts CONSBUFSIZE h.received (if c = 0 then h.delivered else h.delivered ++ [c])
        k.cons rest
      rw [if_neg hc]
      exact hrest
    · exact hq.nonzero

/-- A read takes the oldest character that has not been lost, or finds none. -/
theorem getc {fuel : Nat} {h' : History} (hq : Accounted h q)
    (hstep : h.step fuel .consGetc = some h') :
    ∃ c k q', consGetc fuel h.kernel = some (c, k) ∧ Accounted h' q' ∧ (c = 0 → q' = []) := by
  obtain ⟨polled, hserial, hstep⟩ := Option.bind_eq_some_iff.mp hstep
  obtain ⟨⟨c, k⟩, hgetc, hstep⟩ := Option.bind_eq_some_iff.mp hstep
  have hread := hgetc
  rw [consGetc, hserial, Option.bind_eq_bind, Option.bind_some] at hread
  obtain ⟨full, hkbd, hpop⟩ := Option.bind_eq_some_iff.mp hread
  obtain ⟨hserialInput, hserialCons⟩ := serialIntr_spec hserial
  obtain ⟨hkbdInput, hkbdCons⟩ := kbdIntr_spec hkbd
  cases hstep
  obtain ⟨q₁, hq₁⟩ := hq.receive hserialInput hserialCons
  obtain ⟨q₂, hq₂⟩ := hq₁.receive hkbdInput (k := full) hkbdCons
  refine ⟨c, k, ?_⟩
  rcases hq₂.take with ⟨hempty, hnone⟩ | ⟨c', rest, cons, _, hc, hsome, hrest⟩
  · have hnone' : pop? CONSBUFSIZE full.cons = none := hnone
    rw [hnone'] at hpop
    cases hpop
    refine ⟨[], hgetc, ?_, fun _ => rfl⟩
    rw [← hempty]
    exact ⟨hq₂.accounts, hq₂.nonzero⟩
  · have hsome' : pop? CONSBUFSIZE full.cons = some (c', cons) := hsome
    rw [hsome'] at hpop
    cases hpop
    exact ⟨rest, hgetc, hrest { full with cons := cons } rfl, fun hzero => absurd hzero hc⟩

theorem step {fuel : Nat} {h' : History} (hq : Accounted h q) {call : Call}
    (hstep : h.step fuel call = some h') : ∃ q', Accounted h' q' := by
  cases call with
  | serialIntr =>
      obtain ⟨k, hk, rfl⟩ := Option.map_eq_some_iff.mp hstep
      obtain ⟨hinput, hcons⟩ := serialIntr_spec hk
      exact hq.receive hinput hcons
  | kbdIntr =>
      obtain ⟨k, hk, rfl⟩ := Option.map_eq_some_iff.mp hstep
      obtain ⟨hinput, hcons⟩ := kbdIntr_spec hk
      exact hq.receive hinput hcons
  | consGetc =>
      obtain ⟨_, _, q', _, hq', _⟩ := hq.getc hstep
      exact ⟨q', hq'⟩

theorem run {fuel : Nat} {calls : List Call} {h' : History} (hq : Accounted h q)
    (hrun : h.run fuel calls = some h') : ∃ q', Accounted h' q' := by
  induction calls generalizing h q with
  | nil =>
      cases hrun
      exact ⟨q, hq⟩
  | cons call calls ih =>
      obtain ⟨h₁, hstep, hrest⟩ := Option.bind_eq_some_iff.mp hrun
      obtain ⟨q₁, hq₁⟩ := hq.step hstep
      exact ih hq₁ hrest

end Accounted

/-- In every run, however many characters arrive between two reads, those that
are read come out in order, and what is missing in front of the unread ones is
missing in blocks of `CONSBUFSIZE` consecutive characters. -/
theorem console_loses_blocks (console : Console) (serialExists : Bool) (fuel : Nat)
    (calls : List Call) {h : History}
    (hrun : (History.start (boot console serialExists)).run fuel calls = some h) :
    ∃ gone blocks, h.received = gone ++ pending CONSBUFSIZE h.kernel.cons ∧
      Loses CONSBUFSIZE gone h.delivered ∧
      h.received.length =
        h.delivered.length + CONSBUFSIZE * blocks + (pending CONSBUFSIZE h.kernel.cons).length ∧
      (pending CONSBUFSIZE h.kernel.cons).length < CONSBUFSIZE := by
  obtain ⟨q, hq⟩ := (accounted_start console serialExists).run hrun
  obtain ⟨gone, hreceived, hloses⟩ := hq.accounts.gone
  obtain ⟨blocks, hblocks⟩ := hloses.length
  rw [hq.accounts.ring.pending_eq hq.accounts.room]
  refine ⟨gone, blocks, hreceived, hloses, ?_, hq.accounts.room⟩
  rw [hreceived, List.length_append, hblocks]

/-- A burst that fills the buffer is lost as one block. -/
theorem console_loses_blocks_burst :
    ∃ h gone blocks,
      (History.start (boot (burst CONSBUFSIZE) true)).run (CONSBUFSIZE + 1) [.serialIntr] = some h ∧
      h.received = gone ++ pending CONSBUFSIZE h.kernel.cons ∧
      Loses CONSBUFSIZE gone h.delivered ∧
      h.received.length =
        h.delivered.length + CONSBUFSIZE * blocks + (pending CONSBUFSIZE h.kernel.cons).length ∧
      (pending CONSBUFSIZE h.kernel.cons).length < CONSBUFSIZE := by
  obtain ⟨hserial, _⟩ := serialIntr_burst
  have hrun : ∃ h, (History.start (boot (burst CONSBUFSIZE) true)).run (CONSBUFSIZE + 1)
      [.serialIntr] = some h := by
    refine ⟨(History.start (boot (burst CONSBUFSIZE) true)).receive
      (serialInput (CONSBUFSIZE + 1) (boot (burst CONSBUFSIZE) true))
      (burstKernel ⟨(inb (COM1 + 5) (burst 0)).2, 0⟩), ?_⟩
    rw [History.run, History.step]
    show (Option.map _ (serialIntr _ (boot (burst CONSBUFSIZE) true))).bind _ = _
    rw [hserial]
    rfl
  obtain ⟨h, hrun⟩ := hrun
  obtain ⟨gone, blocks, hparts⟩ := console_loses_blocks _ _ _ _ hrun
  exact ⟨h, gone, blocks, hrun, hparts⟩

end JOSKernel.Kern.ConsoleLoss
