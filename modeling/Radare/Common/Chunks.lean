import Mathlib.Data.List.Infix
import Mathlib.Tactic.Common
/-!
# Chunks

A stream that is read in chunks of `n` symbols: how many there are
(`lt_chunkCount_iff`), and what is in each.
-/

namespace Radare

namespace Common

variable {α : Type*} {n size i j : ℕ} {xs : List α}

/-- The chunks of `n` symbols that so many have. -/
def chunkCount (n size : ℕ) : ℕ := (size + n - 1) / n

/-- **A chunk is there if it begins inside.** -/
theorem lt_chunkCount_iff (hn : 0 < n) : i < chunkCount n size ↔ i * n < size := by
  unfold chunkCount
  rw [← Nat.succ_le_iff, Nat.le_div_iff_mul_le hn, Nat.succ_mul]
  omega

theorem chunkCount_le_iff (hn : 0 < n) : chunkCount n size ≤ i ↔ size ≤ i * n := by
  rw [← Nat.not_lt, lt_chunkCount_iff hn, Nat.not_lt]

/-- A chunk: the symbols from `i * n` on, `n` of them at most. -/
def chunk (n : ℕ) (xs : List α) (i : ℕ) : List α := (xs.drop (i * n)).take n

theorem length_chunk : (chunk n xs i).length = min n (xs.length - i * n) := by
  rw [chunk, List.length_take, List.length_drop]

/-- The chunks behind the first are those of the rest. -/
theorem drop_succ_mul : (xs.drop (i * n)).drop n = xs.drop ((i + 1) * n) := by
  rw [List.drop_drop, Nat.succ_mul]

/-- A symbol more is in the chunk that is not full. -/
theorem chunk_concat (hn : 0 < n) (a : α) :
    chunk n (xs ++ [a]) i = if i = xs.length / n then chunk n xs i ++ [a] else chunk n xs i := by
  have hlow := Nat.div_mul_le_self xs.length n
  have hhigh := Nat.lt_div_mul_add hn (a := xs.length)
  unfold chunk
  rcases Nat.lt_trichotomy i (xs.length / n) with hlt | rfl | hlt
  · have hmul : (i + 1) * n ≤ xs.length / n * n := Nat.mul_le_mul_right n hlt
    rw [Nat.succ_mul] at hmul
    rw [if_neg (by omega), List.drop_append_of_le_length (by omega),
      List.take_append_of_le_length (by rw [List.length_drop]; omega)]
  · have hdrop : (xs.drop (xs.length / n * n)).length < n := by
      rw [List.length_drop]
      omega
    rw [if_pos rfl, List.drop_append_of_le_length hlow, List.take_of_length_le hdrop.le,
      List.take_of_length_le (by rw [List.length_append, List.length_singleton]; omega)]
  · have hmul : (xs.length / n + 1) * n ≤ i * n := Nat.mul_le_mul_right n hlt
    rw [Nat.succ_mul] at hmul
    have hlen : (xs ++ [a]).length = xs.length + 1 := List.length_append
    rw [if_neg (by omega), List.drop_of_length_le (show (xs ++ [a]).length ≤ i * n by omega),
      List.drop_of_length_le (show xs.length ≤ i * n by omega)]

/-- The chunks from one on. -/
def chunksFrom (n : ℕ) (xs : List α) (i count : ℕ) : List (List α) :=
  (List.range' i count).map (chunk n xs)

theorem chunksFrom_succ {count : ℕ} :
    chunksFrom n xs i (count + 1) = chunk n xs i :: chunksFrom n xs (i + 1) count := by
  rw [chunksFrom, List.range'_succ, List.map_cons]
  rfl

end Common

end Radare
