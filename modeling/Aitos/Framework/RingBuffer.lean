import Mathlib

/-!
# Ring buffers

A buffer of `n` slots with a position to write at and one to read at, both running modulo `n`.
One slot stays unused, so equal positions mean that the ring is empty.
-/

namespace Aitos.Framework

structure RingBuffer (α : Type*) where
  buf : Nat → α
  head : Nat
  tail : Nat

namespace RingBuffer

variable {α : Type*} {n : Nat} {r : RingBuffer α}

def next (n pos : Nat) : Nat := (pos + 1) % n

def Full (n : Nat) (r : RingBuffer α) : Prop := next n r.head = r.tail

def Empty (r : RingBuffer α) : Prop := r.head = r.tail

instance : Decidable (r.Full n) := inferInstanceAs (Decidable (_ = _))

instance : Decidable r.Empty := inferInstanceAs (Decidable (_ = _))

def push (n : Nat) (r : RingBuffer α) (x : α) : RingBuffer α :=
  { r with buf := Function.update r.buf r.head x, head := next n r.head }

def pop (n : Nat) (r : RingBuffer α) : RingBuffer α := { r with tail := next n r.tail }

/-- Both positions are inside the buffer. -/
structure Inside (n : Nat) (r : RingBuffer α) : Prop where
  head : r.head < n
  tail : r.tail < n

def count (n : Nat) (r : RingBuffer α) : Nat := (r.head + n - r.tail) % n

/-- What has been written and not yet read, the oldest first. -/
def contents (n : Nat) (r : RingBuffer α) : List α :=
  (List.range (r.count n)).map fun i => r.buf ((r.tail + i) % n)

theorem Inside.push (h : r.Inside n) (x : α) : (r.push n x).Inside n :=
  ⟨Nat.mod_lt _ (Nat.zero_lt_of_lt h.head), h.tail⟩

theorem Inside.pop (h : r.Inside n) : (r.pop n).Inside n :=
  ⟨h.head, Nat.mod_lt _ (Nat.zero_lt_of_lt h.tail)⟩

theorem add_mod_eq {a b : Nat} (ha : a < n) (hb : b ≤ n) :
    (a + b) % n = if a + b < n then a + b else a + b - n := by
  split
  · exact Nat.mod_eq_of_lt ‹_›
  · rw [Nat.mod_eq_sub_mod (by omega)]
    exact Nat.mod_eq_of_lt (by omega)

theorem Inside.count_eq (h : r.Inside n) :
    r.count n = if r.tail ≤ r.head then r.head - r.tail else r.head + n - r.tail := by
  have hh := h.head
  have ht := h.tail
  have hsum : r.head + n - r.tail = r.head + (n - r.tail) := by omega
  rw [count, hsum, add_mod_eq hh (by omega)]
  split <;> split <;> omega

theorem Inside.next_eq {pos : Nat} (h : pos < n) :
    next n pos = if pos + 1 < n then pos + 1 else 0 := by
  rw [next, add_mod_eq h (by omega)]
  split <;> omega

theorem Inside.count_lt (h : r.Inside n) : r.count n < n :=
  Nat.mod_lt _ (Nat.zero_lt_of_lt h.head)

theorem Inside.count_push (h : r.Inside n) (hf : ¬ r.Full n) (x : α) :
    (r.push n x).count n = r.count n + 1 := by
  have hh := h.head
  have ht := h.tail
  rw [(h.push x).count_eq, h.count_eq]
  rw [Full, Inside.next_eq hh] at hf
  simp only [RingBuffer.push, Inside.next_eq hh]
  split_ifs at * <;> omega

theorem Inside.count_pop (h : r.Inside n) (he : ¬ r.Empty) :
    (r.pop n).count n + 1 = r.count n := by
  have hh := h.head
  have ht := h.tail
  rw [h.pop.count_eq, h.count_eq]
  rw [Empty] at he
  simp only [RingBuffer.pop, Inside.next_eq ht]
  split_ifs at * <;> omega

/-- One slot is unused. -/
theorem Inside.full_iff (h : r.Inside n) : r.Full n ↔ r.count n + 1 = n := by
  have hh := h.head
  have ht := h.tail
  rw [Full, Inside.next_eq hh, h.count_eq]
  split_ifs <;> omega

theorem length_contents (n : Nat) (r : RingBuffer α) : (r.contents n).length = r.count n := by
  simp [contents]

theorem Inside.contents_eq_nil (h : r.Inside n) : r.contents n = [] ↔ r.Empty := by
  have hh := h.head
  have ht := h.tail
  rw [← List.length_eq_zero_iff, length_contents, h.count_eq, Empty]
  split_ifs <;> omega

theorem Inside.contents_push (h : r.Inside n) (hf : ¬ r.Full n) (x : α) :
    (r.push n x).contents n = r.contents n ++ [x] := by
  have hh := h.head
  have ht := h.tail
  rw [contents, h.count_push hf, List.range_succ, List.map_append, List.map_singleton]
  -- the last slot is the one written, the ones before it are not
  have hlast : (r.tail + r.count n) % n = r.head := by
    rw [add_mod_eq ht h.count_lt.le, h.count_eq]
    split_ifs <;> omega
  have hold : ∀ i, i < r.count n → (r.tail + i) % n ≠ r.head := by
    intro i hi
    have hin : i ≤ n := (hi.trans h.count_lt).le
    rw [h.count_eq] at hi
    rw [add_mod_eq ht hin]
    split_ifs at * <;> omega
  congr 1
  · apply List.map_congr_left
    intro i hi
    exact Function.update_of_ne (hold i (List.mem_range.mp hi)) _ _
  · congr 1
    change Function.update r.buf r.head x ((r.tail + r.count n) % n) = x
    rw [hlast, Function.update_self]

theorem Inside.contents_pop (h : r.Inside n) (he : ¬ r.Empty) :
    r.contents n = r.buf r.tail :: (r.pop n).contents n := by
  have ht := h.tail
  rw [contents, ← h.count_pop he, List.range_succ_eq_map, List.map_cons, List.map_map]
  congr 1
  · rw [Nat.add_zero, Nat.mod_eq_of_lt ht]
  · apply List.map_congr_left
    intro i hi
    have hpos : (r.tail + (i + 1)) % n = (next n r.tail + i) % n := by
      rw [next, Nat.mod_add_mod]
      congr 1
      omega
    change r.buf ((r.tail + (i + 1)) % n) = r.buf ((next n r.tail + i) % n)
    rw [hpos]

end RingBuffer

end Aitos.Framework
