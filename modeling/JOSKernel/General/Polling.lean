import JOSKernel.General.MachineInt

/-!
# Polling a status register

A device answers each poll with a status byte.  It may put the question off any
number of times, with any bytes, before it says that it is ready.
-/

namespace JOSKernel.General.Polling

open JOSKernel.General.MachineInt

variable {σ : Type} {ready : Byte → Bool}

/-- What a device answers until it is given something to do: first the bytes
`waits`, then `settled` for ever. -/
structure Status (ready : Byte → Bool) where
  waits : List { b : Byte // ready b = false }
  settled : { b : Byte // ready b = true }

namespace Status

def idle (s : Status ready) : Status ready := { s with waits := [] }

def isIdle (s : Status ready) : Bool := s.waits.isEmpty

def read (s : Status ready) : Byte × Status ready :=
  match s.waits with
  | [] => (s.settled.val, s)
  | b :: waits => (b.val, { s with waits := waits })

theorem read_ready {s : Status ready} (h : s.waits = []) : s.read = (s.settled.val, s.idle) := by
  obtain ⟨waits, settled⟩ := s
  cases h
  rfl

theorem read_wait {s : Status ready} {b : { b : Byte // ready b = false }}
    {waits : List { b : Byte // ready b = false }} (h : s.waits = b :: waits) :
    s.read = (b.val, { s with waits := waits }) := by
  obtain ⟨_, settled⟩ := s
  cases h
  rfl

end Status

/-- Where a device of type `σ` keeps its status. -/
structure Register (σ : Type) (ready : Byte → Bool) where
  get : σ → Status ready
  set : Status ready → σ → σ
  get_set : ∀ x s, get (set x s) = x
  set_set : ∀ x y s, set x (set y s) = set x s

namespace Register

/-- One poll. -/
def read (r : Register σ ready) (s : σ) : Byte × σ :=
  ((r.get s).read.1, r.set (r.get s).read.2 s)

theorem read_ready (r : Register σ ready) {s : σ} (h : (r.get s).waits = []) :
    r.read s = ((r.get s).settled.val, r.set (r.get s).idle s) := by
  rw [read, Status.read_ready h]

theorem read_wait (r : Register σ ready) {s : σ} {b : { b : Byte // ready b = false }}
    {waits : List { b : Byte // ready b = false }} (h : (r.get s).waits = b :: waits) :
    r.read s = (b.val, r.set { r.get s with waits := waits } s) := by
  rw [read, Status.read_wait h]

/-- The loop that polls until the answer is `ready`, for at most `polls` rounds. -/
def poll (r : Register σ ready) : Nat → σ → Option σ
  | 0, _ => none
  | polls + 1, s =>
      if ready (r.read s).1 then some (r.read s).2 else r.poll polls (r.read s).2

/-- The loop ends after as many rounds as the device has put the question off,
and leaves the device idle. -/
theorem poll_eq (r : Register σ ready) (polls : Nat) (s : σ) :
    r.poll polls s =
      if (r.get s).waits.length < polls then some (r.set (r.get s).idle s) else none := by
  induction polls generalizing s with
  | zero => rfl
  | succ polls ih =>
      cases hwaits : (r.get s).waits with
      | nil =>
          rw [poll, r.read_ready hwaits, if_pos (r.get s).settled.property]
          exact (if_pos (Nat.succ_pos polls)).symm
      | cons b waits =>
          have hwait : ¬ ready b.val = true := by
            rw [b.property]
            exact Bool.false_ne_true
          rw [poll, r.read_wait hwaits, if_neg hwait, ih, r.get_set, r.set_set]
          simp only [List.length_cons, Nat.add_lt_add_iff_right]
          rfl

end Register

end JOSKernel.General.Polling
