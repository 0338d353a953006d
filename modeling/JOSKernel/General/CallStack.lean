import JOSKernel.General.ByteMemory

/-!
# Calls on a stack

A stack of 32-bit words that grows downwards, and calls that leave a frame
pointer: the caller pushes the arguments, last one first, and the return
address; the called function pushes the caller's frame pointer, takes its own
from the stack pointer, and makes room below.
-/

namespace JOSKernel.General.CallStack

open JOSKernel.General.ByteMemory
open JOSKernel.General.MachineInt

structure Stack where
  esp : Word
  ebp : Word
  mem : Memory

def Stack.push (s : Stack) (v : Word) : Stack :=
  { s with esp := s.esp - 4, mem := storeWord s.mem (s.esp - 4).toNat v }

/-- The entry of a function. -/
def Stack.enter (s : Stack) (room : Nat) : Stack :=
  let s := s.push s.ebp
  { s with ebp := s.esp, esp := s.esp - BitVec.ofNat 32 room }

def Stack.call (s : Stack) (args : List Word) (eip : Word) (room : Nat) : Stack :=
  ((args.foldr (fun v s => s.push v) s).push eip).enter room

/-- `s'` is `s` with these words pushed, the last one first. -/
structure Pushed (s s' : Stack) (words : List Word) : Prop where
  esp : s'.esp.toNat + 4 * words.length = s.esp.toNat
  ebp : s'.ebp = s.ebp
  at_word : ∀ i (h : i < words.length), readLE s'.mem (s'.esp.toNat + 4 * i) 4 = words[i].toNat
  above : ∀ a, s.esp.toNat ≤ a → s'.mem a = s.mem a

namespace Pushed

variable {s s' : Stack} {words : List Word}

theorem refl (s : Stack) : Pushed s s [] where
  esp := rfl
  ebp := rfl
  at_word _ h := absurd h (Nat.not_lt_zero _)
  above _ _ := rfl

theorem push (h : Pushed s s' words) (v : Word) (hroom : 4 ≤ s'.esp.toNat) :
    Pushed s (s'.push v) (v :: words) := by
  have hlt := s'.esp.isLt
  have hfour : (4 : Word).toNat = 4 := rfl
  have hesp : (s'.push v).esp.toNat = s'.esp.toNat - 4 := by
    rw [Stack.push, BitVec.toNat_sub, hfour]
    simp only [Nat.reducePow, Nat.reduceSub] at hlt ⊢
    omega
  have hmem : (s'.push v).mem = storeWord s'.mem (s'.push v).esp.toNat v := rfl
  constructor
  · rw [hesp, List.length_cons]
    have hold := h.esp
    omega
  · exact h.ebp
  · intro i hi
    cases i with
    | zero => rw [hmem, Nat.mul_zero, Nat.add_zero, readLE_storeWord, List.getElem_cons_zero]
    | succ i =>
        have hnext : (s'.push v).esp.toNat + 4 * (i + 1) = s'.esp.toNat + 4 * i := by omega
        rw [List.getElem_cons_succ, ← h.at_word i (Nat.lt_of_succ_lt_succ hi), hnext, hmem]
        exact readLE_congr fun j _ => storeWord_outside _ _ (by omega)
  · intro a ha
    have hold := h.esp
    rw [hmem, storeWord_outside _ _ (by omega), h.above a ha]

theorem args (s : Stack) {args : List Word} (hroom : 4 * args.length ≤ s.esp.toNat) :
    Pushed s (args.foldr (fun v s => s.push v) s) args := by
  induction args with
  | nil => exact refl s
  | cons v args ih =>
      rw [List.length_cons] at hroom
      have hargs := ih (by omega)
      have hold := hargs.esp
      exact hargs.push v (by omega)

end Pushed

theorem room_below {esp : Word} {room : Nat} (h : room ≤ esp.toNat) :
    (esp - BitVec.ofNat 32 room).toNat + room = esp.toNat := by
  have hlt := esp.isLt
  rw [BitVec.toNat_sub, BitVec.toNat_ofNat]
  simp only [Nat.reducePow] at hlt ⊢
  omega

/-- The frame at the entry of a function. -/
structure Entered (s s' : Stack) (room : Nat) : Prop where
  ebp : s'.ebp.toNat + 4 = s.esp.toNat
  esp : s'.esp.toNat + room = s'.ebp.toNat
  saved : readLE s'.mem s'.ebp.toNat 4 = s.ebp.toNat
  above : ∀ a, s.esp.toNat ≤ a → s'.mem a = s.mem a

theorem enter_spec (s : Stack) {room : Nat} (hroom : 4 + room ≤ s.esp.toNat) :
    Entered s (s.enter room) room := by
  have hpush := (Pushed.refl s).push s.ebp (by omega)
  have hesp := hpush.esp
  rw [List.length_singleton] at hesp
  refine ⟨hesp, room_below (by omega), ?_, hpush.above⟩
  exact hpush.at_word 0 Nat.one_pos

/-- The frame that a call leaves. -/
structure Called (s s' : Stack) (args : List Word) (eip : Word) (room : Nat) : Prop where
  ebp : s'.ebp.toNat + 4 * (args.length + 2) = s.esp.toNat
  esp : s'.esp.toNat + room = s'.ebp.toNat
  at_word : ∀ i (h : i < (s.ebp :: eip :: args).length),
    readLE s'.mem (s'.ebp.toNat + 4 * i) 4 = (s.ebp :: eip :: args)[i].toNat
  above : ∀ a, s.esp.toNat ≤ a → s'.mem a = s.mem a

theorem call_spec (s : Stack) (args : List Word) (eip : Word) {room : Nat}
    (hroom : 4 * (args.length + 2) + room ≤ s.esp.toNat) :
    Called s (s.call args eip room) args eip room := by
  have hargs : Pushed s (args.foldr (fun v s => s.push v) s) args := Pushed.args s (by omega)
  have hesp := hargs.esp
  have hreturn := hargs.push eip (by omega)
  have hesp' := hreturn.esp
  have hframe := hreturn.push ((args.foldr (fun v s => s.push v) s).push eip).ebp
    (by rw [List.length_cons] at hesp'; omega)
  have hlast := hframe.esp
  have hsaved := hreturn.ebp
  rw [hsaved] at hframe
  rw [List.length_cons, List.length_cons] at hlast
  refine ⟨hlast, ?_, fun i hi => ?_, fun a ha => ?_⟩
  · exact room_below (by omega)
  · rw [← hframe.at_word i hi, hsaved.symm]
    rfl
  · rw [← hframe.above a ha, hsaved.symm]
    rfl

end JOSKernel.General.CallStack
