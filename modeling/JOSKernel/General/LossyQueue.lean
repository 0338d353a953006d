import JOSKernel.General.CircularQueue

/-!
# Queues that forget

A ring buffer whose writer never looks at the read index forgets everything
unread when it fills up.  What it loses is always a block of as many consecutive
elements as it has cells; everything else comes out in order.
-/

namespace JOSKernel.General.LossyQueue

open JOSKernel.General.CircularQueue

variable {α : Type}

/-- The elements `sent` came out as `kept`, up to blocks of `n` consecutive
elements that were dropped. -/
inductive Loses (n : Nat) : List α → List α → Prop where
  | nil : Loses n [] []
  | keep {sent kept : List α} (a : α) (h : Loses n sent kept) : Loses n (sent ++ [a]) (kept ++ [a])
  | drop {sent kept block : List α} (hblock : block.length = n) (h : Loses n sent kept) :
      Loses n (sent ++ block) kept

/-- Whole blocks are missing. -/
theorem Loses.length {n : Nat} {sent kept : List α} (h : Loses n sent kept) :
    ∃ blocks, sent.length = kept.length + n * blocks := by
  induction h with
  | nil => exact ⟨0, rfl⟩
  | keep a _ ih =>
      obtain ⟨blocks, hblocks⟩ := ih
      refine ⟨blocks, ?_⟩
      rw [List.length_append, List.length_append, hblocks, Nat.add_right_comm]
  | drop hblock _ ih =>
      obtain ⟨blocks, hblocks⟩ := ih
      refine ⟨blocks + 1, ?_⟩
      rw [List.length_append, hblock, hblocks, Nat.add_assoc, Nat.mul_succ]

variable {capacity : Nat}

/-- A ring with room, the queue `q` in it, and what has become of all the
elements before: they were kept or dropped. -/
structure Accounts (capacity : Nat) (sent kept : List α) (r : RingBuffer α) (q : List α) :
    Prop where
  ring : Represents capacity r q
  room : q.length < capacity
  gone : ∃ gone, sent = gone ++ q ∧ Loses capacity gone kept

namespace Accounts

variable {sent kept q : List α} {r : RingBuffer α}

theorem start (hrpos : r.rpos < capacity) (hwpos : r.wpos = r.rpos) :
    Accounts capacity [] [] r [] where
  ring := Represents.nil hrpos hwpos
  room := Nat.zero_lt_of_lt hrpos
  gone := ⟨[], rfl, .nil⟩

/-- A push that fills the ring drops all that is in it. -/
theorem push (h : Accounts capacity sent kept r q) (a : α) :
    ∃ q', Accounts capacity (sent ++ [a]) kept (push capacity r a) q' := by
  obtain ⟨gone, hsent, hloses⟩ := h.gone
  have hpushed := h.ring.push h.room a
  have hlength : (q ++ [a]).length = q.length + 1 := by
    rw [List.length_append, List.length_singleton]
  rcases Nat.lt_or_eq_of_le (Nat.succ_le_of_lt h.room) with hroom | hfull
  · refine ⟨q ++ [a], hpushed, ?_, gone, ?_, hloses⟩
    · rw [hlength]
      exact hroom
    · rw [hsent, List.append_assoc]
  · have hfilled : (q ++ [a]).length = capacity := hlength.trans hfull
    have hsame : (CircularQueue.push capacity r a).wpos = (CircularQueue.push capacity r a).rpos := by
      rw [hpushed.wpos_eq, hfilled, slot, if_neg (by omega), Nat.add_sub_cancel]
    refine ⟨[], Represents.nil hpushed.rpos_lt hsame, Nat.zero_lt_of_lt h.room,
      gone ++ (q ++ [a]), ?_, .drop hfilled hloses⟩
    rw [hsent, List.append_nil, List.append_assoc]

theorem pushAll (h : Accounts capacity sent kept r q) (as : List α) :
    ∃ q', Accounts capacity (sent ++ as) kept (as.foldl (CircularQueue.push capacity) r) q' := by
  induction as generalizing sent r q with
  | nil =>
      rw [List.append_nil]
      exact ⟨q, h⟩
  | cons a as ih =>
      obtain ⟨q₁, h₁⟩ := h.push a
      obtain ⟨q', h'⟩ := ih h₁
      rw [List.append_assoc] at h'
      exact ⟨q', h'⟩

/-- A pop takes the oldest element that has not been dropped. -/
theorem pop? (h : Accounts capacity sent kept r q) :
    q = [] ∧ pop? capacity r = none ∨
      ∃ a rest r', q = a :: rest ∧ CircularQueue.pop? capacity r = some (a, r') ∧
        Accounts capacity sent (kept ++ [a]) r' rest := by
  obtain ⟨gone, hsent, hloses⟩ := h.gone
  cases q with
  | nil => exact .inl ⟨rfl, h.ring.pop?_nil⟩
  | cons a rest =>
      obtain ⟨r', hpop, hring⟩ := h.ring.pop?_cons h.room
      refine .inr ⟨a, rest, r', rfl, hpop, hring, Nat.lt_of_succ_lt h.room, gone ++ [a], ?_,
        .keep a hloses⟩
      rw [hsent, List.append_assoc, List.singleton_append]

end Accounts

end JOSKernel.General.LossyQueue
