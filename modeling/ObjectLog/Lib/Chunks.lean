import Mathlib

/-!
# Lists in chunks

A list that is cut into chunks of one size: which elements a chunk has, what it keeps when
the list grows, and what a piece of it is in terms of the whole list.
-/

namespace Chunks

variable {α : Type} {xs ys : List α} {size i : Nat}

/-- The chunk at position `i`. Only the last one can be shorter than `size`. -/
def chunk (xs : List α) (size i : Nat) : List α := (xs.drop (i * size)).take size

/-- The number of chunks. -/
def count (length size : Nat) : Nat := (length + size - 1) / size

theorem chunk_length : (chunk xs size i).length = min (xs.length - i * size) size := by
  simp [chunk, Nat.min_comm]

/-- A full chunk stays when the list grows. -/
theorem chunk_append (h : (i + 1) * size ≤ xs.length) :
    chunk (xs ++ ys) size i = chunk xs size i := by
  rw [Nat.add_mul, Nat.one_mul] at h
  unfold chunk
  rw [List.drop_append_of_le_length (by omega), List.take_append_of_le_length]
  rw [List.length_drop]
  omega

/-- What is behind the last full chunk is the last chunk. -/
theorem chunk_last (h : xs.length ≤ (i + 1) * size) : chunk xs size i = xs.drop (i * size) := by
  rw [Nat.add_mul, Nat.one_mul] at h
  unfold chunk
  rw [List.take_of_length_le]
  rw [List.length_drop]
  omega

theorem count_of_full (hpos : 0 < size) : count (i * size) size = i := by
  unfold count
  rw [Nat.add_sub_assoc hpos, Nat.add_comm, Nat.add_mul_div_right _ _ hpos,
    Nat.div_eq_of_lt (by omega)]
  omega

theorem count_of_rest {length : Nat} (hlo : i * size < length) (hhi : length < (i + 1) * size) :
    count length size = i + 1 := by
  have hpos : 0 < size := by
    rcases Nat.eq_zero_or_pos size with rfl | h
    · simp at hhi
    · exact h
  rw [Nat.add_mul, Nat.one_mul] at hhi
  unfold count
  rw [Nat.div_eq_iff hpos, Nat.add_mul, Nat.one_mul]
  omega

/-- The chunks reach the end of the list. -/
theorem length_le_count_mul {length : Nat} (hpos : 0 < size) :
    length ≤ count length size * size := by
  have hsplit := Nat.div_add_mod' (length + size - 1) size
  have hlt := Nat.mod_lt (length + size - 1) hpos
  unfold count
  omega

/-- A chunk starts before the end of the list. -/
theorem mul_lt_of_lt_count {length : Nat} (h : i < count length size) : i * size < length := by
  have hle : (i + 1) * size ≤ length + size - 1 := by
    refine (Nat.mul_le_mul_right size (Nat.succ_le_of_lt h)).trans ?_
    exact Nat.div_mul_le_self _ _
  rw [Nat.add_mul, Nat.one_mul] at hle
  have hpos : 0 < size := by
    rcases Nat.eq_zero_or_pos size with rfl | hpos
    · simp [count] at h
    · exact hpos
  omega

/-- The lengths of the first chunks. -/
theorem sum_chunk_lengths (length size n : Nat) :
    ((List.range n).map fun i => min (length - i * size) size).sum = min length (n * size) := by
  induction n with
  | zero => simp
  | succ n ih =>
      rw [List.range_succ, List.map_append, List.sum_append, ih, Nat.add_mul, Nat.one_mul]
      simp only [List.map_cons, List.map_nil, List.sum_cons, List.sum_nil]
      omega

/-- A piece of a chunk is a piece of the list that ends with the chunk, at the latest. -/
theorem chunk_slice (hpos : 0 < size) (offset len : Nat) :
    ((chunk xs size (offset / size)).drop (offset % size)).take len =
      xs.extract offset (min (offset + len) (min ((offset / size + 1) * size) xs.length)) := by
  have hsplit : offset / size * size + offset % size = offset := Nat.div_add_mod' offset size
  have hlt : offset % size < size := Nat.mod_lt offset hpos
  unfold chunk
  rw [List.extract_eq_take_drop, List.drop_take, List.drop_drop, List.take_take, hsplit,
    List.take_eq_take_iff, List.length_drop, Nat.add_mul, Nat.one_mul]
  omega

end Chunks
