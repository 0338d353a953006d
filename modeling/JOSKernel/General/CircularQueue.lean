import Mathlib.Tactic.Common

/-!
# Circular queues

A ring buffer is an array with a read and a write index that wrap around.  It
represents the queue of the elements between the two indices.  With as many
elements as cells the indices meet again, so a full ring and an empty one look
alike to a reader.
-/

namespace JOSKernel.General.CircularQueue

structure RingBuffer (α : Type) where
  buf : Nat → α
  rpos : Nat
  wpos : Nat

variable {α : Type} {capacity : Nat}

/-- The next index, wrapping from the last cell to the first. -/
def advance (capacity i : Nat) : Nat := if i + 1 = capacity then 0 else i + 1

def push (capacity : Nat) (r : RingBuffer α) (a : α) : RingBuffer α :=
  { r with
    buf := fun i => if i = r.wpos then a else r.buf i
    wpos := advance capacity r.wpos }

def pop? (capacity : Nat) (r : RingBuffer α) : Option (α × RingBuffer α) :=
  if r.rpos ≠ r.wpos then some (r.buf r.rpos, { r with rpos := advance capacity r.rpos }) else none

/-- The cell `k` places behind cell `i`, for `k` up to the capacity. -/
def slot (capacity i k : Nat) : Nat := if i + k < capacity then i + k else i + k - capacity

/-- The elements between the two indices. -/
def pending (capacity : Nat) (r : RingBuffer α) : List α :=
  (List.range (if r.rpos ≤ r.wpos then r.wpos - r.rpos else r.wpos + capacity - r.rpos)).map
    fun k => r.buf (slot capacity r.rpos k)

/-- The cells from the read index on hold the queue `q`, and the write index
stands behind them. -/
structure Represents (capacity : Nat) (r : RingBuffer α) (q : List α) : Prop where
  rpos_lt : r.rpos < capacity
  length_le : q.length ≤ capacity
  wpos_eq : r.wpos = slot capacity r.rpos q.length
  cells : ∀ k (h : k < q.length), r.buf (slot capacity r.rpos k) = q[k]

theorem slot_lt {i k : Nat} (hi : i < capacity) (hk : k ≤ capacity) : slot capacity i k < capacity := by
  rw [slot]
  split <;> omega

theorem slot_inj {i j k : Nat} (hj : j < k) (hk : k < capacity) :
    slot capacity i j ≠ slot capacity i k := by
  rw [slot, slot]
  split <;> split <;> omega

theorem advance_slot {i k : Nat} (hi : i < capacity) (hk : k < capacity) :
    advance capacity (slot capacity i k) = slot capacity i (k + 1) := by
  rw [advance, slot, slot]
  split <;> split <;> split <;> omega

theorem slot_advance {i k : Nat} (hk : k < capacity) :
    slot capacity (advance capacity i) k = slot capacity i (k + 1) := by
  rw [advance, slot, slot]
  split <;> split <;> split <;> omega

namespace Represents

theorem nil {r : RingBuffer α} (hrpos : r.rpos < capacity) (hwpos : r.wpos = r.rpos) :
    Represents capacity r [] where
  rpos_lt := hrpos
  length_le := Nat.zero_le _
  wpos_eq := by
    rw [hwpos, slot, List.length_nil, if_pos (by omega), Nat.add_zero]
  cells k hk := absurd hk (Nat.not_lt_zero k)

theorem wpos_lt {r : RingBuffer α} {q : List α} (h : Represents capacity r q) : r.wpos < capacity := by
  rw [h.wpos_eq]
  exact slot_lt h.rpos_lt h.length_le

/-- Below the capacity a push appends to the queue. -/
theorem push {r : RingBuffer α} {q : List α} (h : Represents capacity r q) (hroom : q.length < capacity)
    (a : α) : Represents capacity (push capacity r a) (q ++ [a]) where
  rpos_lt := h.rpos_lt
  length_le := by
    rw [List.length_append, List.length_singleton]
    exact hroom
  wpos_eq := by
    rw [List.length_append, List.length_singleton]
    show advance capacity r.wpos = _
    rw [h.wpos_eq]
    exact advance_slot h.rpos_lt hroom
  cells k hk := by
    rw [List.length_append, List.length_singleton] at hk
    show (if slot capacity r.rpos k = r.wpos then a else r.buf (slot capacity r.rpos k)) = _
    rw [h.wpos_eq]
    rcases Nat.lt_or_ge k q.length with hold | hnew
    · rw [if_neg (slot_inj hold hroom), h.cells k hold, List.getElem_append_left]
    · have hlast : k = q.length := by omega
      subst hlast
      rw [if_pos rfl]
      simp

/-- Several pushes that fit. -/
theorem pushAll {r : RingBuffer α} {q : List α} (h : Represents capacity r q) (as : List α)
    (hroom : q.length + as.length ≤ capacity) :
    Represents capacity (as.foldl (CircularQueue.push capacity) r) (q ++ as) := by
  induction as generalizing r q with
  | nil =>
      rw [List.append_nil]
      exact h
  | cons a as ih =>
      rw [List.length_cons] at hroom
      have hrest := ih (h.push (by omega) a)
        (by rw [List.length_append, List.length_singleton]; omega)
      rw [List.append_assoc] at hrest
      exact hrest

theorem pop?_nil {r : RingBuffer α} (h : Represents capacity r []) : pop? capacity r = none := by
  have hsame : r.wpos = r.rpos := by
    have hrpos := h.rpos_lt
    rw [h.wpos_eq, slot, List.length_nil, if_pos (by omega), Nat.add_zero]
  rw [pop?, hsame, if_neg (fun hne => hne rfl)]

/-- A full ring is taken for an empty one. -/
theorem pop?_full {r : RingBuffer α} {q : List α} (h : Represents capacity r q)
    (hfull : q.length = capacity) : pop? capacity r = none := by
  have hsame : r.wpos = r.rpos := by
    rw [h.wpos_eq, slot, hfull, if_neg (by omega), Nat.add_sub_cancel]
  rw [pop?, hsame, if_neg (fun hne => hne rfl)]

/-- Filling an empty ring makes it look empty again. -/
theorem pop?_filled {r : RingBuffer α} (h : Represents capacity r []) {as : List α}
    (hfill : as.length = capacity) :
    pop? capacity (as.foldl (CircularQueue.push capacity) r) = none := by
  have hfull := h.pushAll as (by rw [List.length_nil]; omega)
  exact hfull.pop?_full (by rw [List.nil_append, hfill])

/-- Below the capacity a pop takes the head of the queue. -/
theorem pop?_cons {r : RingBuffer α} {a : α} {q : List α} (h : Represents capacity r (a :: q))
    (hroom : (a :: q).length < capacity) :
    ∃ r', pop? capacity r = some (a, r') ∧ Represents capacity r' q := by
  have hrpos := h.rpos_lt
  rw [List.length_cons] at hroom
  have hzero : slot capacity r.rpos 0 = r.rpos := by
    rw [slot, if_pos (by omega), Nat.add_zero]
  have hne : r.rpos ≠ r.wpos := by
    have hslot := slot_inj (i := r.rpos) (show 0 < q.length + 1 by omega) hroom
    rw [hzero] at hslot
    rw [h.wpos_eq]
    exact hslot
  have hhead := h.cells 0 (Nat.zero_lt_succ _)
  rw [hzero] at hhead
  refine ⟨{ r with rpos := advance capacity r.rpos }, ?_, ?_⟩
  · rw [pop?, if_pos hne, hhead]
    rfl
  · constructor
    · show advance capacity r.rpos < capacity
      rw [advance]
      split <;> omega
    · omega
    · show r.wpos = slot capacity (advance capacity r.rpos) q.length
      rw [h.wpos_eq, slot_advance (by omega)]
      rfl
    · intro k hk
      show r.buf (slot capacity (advance capacity r.rpos) k) = _
      rw [slot_advance (by omega), h.cells (k + 1) (Nat.succ_lt_succ hk)]
      rfl

/-- Below the capacity the queue is what lies between the indices. -/
theorem pending_eq {r : RingBuffer α} {q : List α} (h : Represents capacity r q)
    (hroom : q.length < capacity) : pending capacity r = q := by
  have hrpos := h.rpos_lt
  have hcount : (if r.rpos ≤ r.wpos then r.wpos - r.rpos else r.wpos + capacity - r.rpos) =
      q.length := by
    rw [h.wpos_eq, slot]
    split <;> split <;> omega
  rw [pending, hcount]
  apply List.ext_getElem
  · simp
  · intro k _ hk
    rw [List.getElem_map, List.getElem_range, h.cells k hk]

end Represents

end JOSKernel.General.CircularQueue
