import Mathlib.Data.List.Basic

/-! A queue of blocks that is written at its end and consumed from its front, by any
number of items at a time. -/

namespace SegmentQueue

variable {α : Type}

/-- A block of which the first `pos` items have been consumed, and with items left. -/
structure Segment (α : Type) where
  buf : List α
  pos : Nat
  unfinished : pos < buf.length

def Segment.left (s : Segment α) : List α := s.buf.drop s.pos

theorem Segment.length_left (s : Segment α) :
    s.left.length = s.buf.length - s.pos := List.length_drop

/-- The items of the queue, in their order. -/
def pending (q : List (Segment α)) : List α := q.flatMap Segment.left

/-- An empty block is not stored. -/
def push (q : List (Segment α)) (l : List α) : List (Segment α) :=
  if h : 0 < l.length then q ++ [⟨l, 0, h⟩] else q

/-- `n` items of the first block are consumed, and the block is taken away with its last. -/
def consume : List (Segment α) → Nat → List (Segment α)
  | [], _ => []
  | s :: q, n => if h : s.pos + n < s.buf.length then ⟨s.buf, s.pos + n, h⟩ :: q else q

@[simp] theorem pending_nil : pending ([] : List (Segment α)) = [] := rfl

@[simp] theorem pending_cons (s : Segment α) (q : List (Segment α)) :
    pending (s :: q) = s.left ++ pending q := rfl

@[simp] theorem pending_push (q : List (Segment α)) (l : List α) :
    pending (push q l) = pending q ++ l := by
  rw [push]
  split_ifs with h
  · simp [pending, Segment.left]
  · simp [List.length_eq_zero_iff.mp (Nat.eq_zero_of_not_pos h)]

theorem take_append_pending_consume (s : Segment α) (q : List (Segment α)) (n : Nat) :
    s.left.take n ++ pending (consume (s :: q) n) = pending (s :: q) := by
  rw [consume, pending_cons]
  split_ifs with h
  · have hrest : s.left.drop n = s.buf.drop (s.pos + n) := by rw [Segment.left, List.drop_drop]
    rw [pending_cons, ← List.append_assoc]
    change (s.left.take n ++ s.buf.drop (s.pos + n)) ++ _ = _
    rw [← hrest, List.take_append_drop]
  · rw [List.take_of_length_le (by rw [s.length_left]; omega)]

theorem length_consume_le (q : List (Segment α)) (n : Nat) : (consume q n).length ≤ q.length := by
  cases q with
  | nil => exact Nat.le_refl _
  | cons s q =>
    rw [consume]
    split_ifs <;> simp

end SegmentQueue
