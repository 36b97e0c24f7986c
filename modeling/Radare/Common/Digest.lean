import Mathlib.Data.Nat.ModEq
import Radare.Common.Chunks
import Radare.Common.Overlay
/-!
# Digests of streams

A function that works on blocks of `n` symbols, run over a stream: the state,
and the symbols of the block that is not yet full (`absorbs`). It does not
matter in which pieces a stream comes (`absorbs_append`), and of a stream of
whole blocks nothing is left over (`absorbs_blocks`).

What is left is kept in a buffer of `n` symbols, whatever else lies in it
(`Holds`). A message is padded so that it ends with a block
(`dvd_length_padMessage`).
-/

namespace Radare

namespace Common

variable {α σ : Type*} {n k : ℕ} {f : σ → List α → σ} {iv h : σ} {s : σ × List α}
variable {buf buf' xs ys field : List α} {mark zero : α}

/-! ## The stream -/

/-- One symbol: a block that it makes full is worked on. -/
def absorb (n : ℕ) (f : σ → List α → σ) (s : σ × List α) (a : α) : σ × List α :=
  if s.2.length + 1 = n then (f s.1 (s.2 ++ [a]), []) else (s.1, s.2 ++ [a])

/-- A stream, symbol by symbol. -/
def absorbs (n : ℕ) (f : σ → List α → σ) (s : σ × List α) (xs : List α) : σ × List α :=
  xs.foldl (absorb n f) s

/-- **The pieces of a stream do not matter.** -/
theorem absorbs_append : absorbs n f s (xs ++ ys) = absorbs n f (absorbs n f s xs) ys :=
  List.foldl_append

/-- Too little for a block. -/
theorem absorbs_short (hlt : buf.length + xs.length < n) :
    absorbs n f (h, buf) xs = (h, buf ++ xs) := by
  induction xs generalizing buf with
  | nil => rw [List.append_nil]; rfl
  | cons x xs ih =>
    rw [List.length_cons] at hlt
    have hone : absorb n f (h, buf) x = (h, buf ++ [x]) := if_neg (by dsimp only; omega)
    have hlen : (buf ++ [x]).length = buf.length + 1 := List.length_append
    have hrest : absorbs n f (h, buf ++ [x]) xs = (h, buf ++ x :: xs) := by
      rw [ih (by omega), List.append_assoc, List.singleton_append]
    rw [← hrest, ← hone]
    rfl

/-- What makes a block full. -/
theorem absorbs_full (hxs : xs ≠ []) (hlen : buf.length + xs.length = n) :
    absorbs n f (h, buf) xs = (f h (buf ++ xs), []) := by
  obtain ⟨ys, y, rfl⟩ := (List.eq_nil_or_concat' xs).resolve_left hxs
  rw [List.length_append, List.length_singleton] at hlen
  have hfull : (buf ++ ys).length + 1 = n := by
    rw [List.length_append]
    omega
  have hshort : absorbs n f (h, buf) ys = (h, buf ++ ys) := absorbs_short (by omega)
  rw [absorbs_append, hshort, ← List.append_assoc]
  exact if_pos hfull

/-- The first block of a stream. -/
theorem absorbs_block (hn : 0 < n) (hle : n ≤ xs.length) :
    absorbs n f (h, []) xs = absorbs n f (f h (xs.take n), []) (xs.drop n) := by
  have htake : (xs.take n).length = n := List.length_take_of_le hle
  have hne : xs.take n ≠ [] := by
    intro hnil
    rw [hnil, List.length_nil] at htake
    omega
  conv_lhs => rw [← List.take_append_drop n xs]
  rw [absorbs_append, absorbs_full hne (by rw [List.length_nil, htake, Nat.zero_add])]
  rfl

/-- **What is left over** is the stream modulo the block. -/
theorem length_absorbs (hlt : s.2.length < n) :
    (absorbs n f s xs).2.length = (s.2.length + xs.length) % n := by
  induction xs generalizing s with
  | nil => exact (Nat.mod_eq_of_lt hlt).symm
  | cons x xs ih =>
    have hstep : (absorb n f s x).2.length < n ∧
        (absorb n f s x).2.length % n = (s.2.length + 1) % n := by
      unfold absorb
      split_ifs with hfull
      · rw [hfull, Nat.mod_self]
        exact ⟨by dsimp only [List.length_nil]; omega, Nat.zero_mod n⟩
      · rw [List.length_append, List.length_singleton]
        exact ⟨by omega, rfl⟩
    rw [List.length_cons, Nat.add_comm xs.length, ← Nat.add_assoc]
    exact (ih hstep.1).trans (Nat.ModEq.add_right xs.length hstep.2)

/-! ## Whole blocks -/

/-- The blocks of a stream, one behind the other. -/
def foldBlocks (n : ℕ) (f : σ → List α → σ) (h : σ) (xs : List α) : σ :=
  (chunksFrom n xs 0 (xs.length / n)).foldl f h

/-- The chunks behind the first. -/
theorem chunksFrom_drop {i : ℕ} : chunksFrom n xs (i + 1) k = chunksFrom n (xs.drop n) i k := by
  unfold chunksFrom
  rw [Nat.add_comm i, ← List.map_add_range', List.map_map]
  refine List.map_congr_left fun j _ => ?_
  rw [Function.comp_apply, chunk, chunk, List.drop_drop, Nat.add_mul, Nat.one_mul]

theorem foldBlocks_block (hn : 0 < n) (hle : n ≤ xs.length) :
    foldBlocks n f h xs = foldBlocks n f (f h (xs.take n)) (xs.drop n) := by
  have hcount : xs.length / n = (xs.drop n).length / n + 1 := by
    rw [List.length_drop, Nat.div_eq_sub_div hn hle]
  unfold foldBlocks
  rw [hcount, chunksFrom_succ, List.foldl_cons, chunksFrom_drop, chunk, Nat.zero_mul,
    List.drop_zero]

/-- **Of whole blocks nothing is left over.** -/
theorem absorbs_blocks (hn : 0 < n) (hdvd : n ∣ xs.length) :
    absorbs n f (h, []) xs = (foldBlocks n f h xs, []) := by
  obtain ⟨k, hk⟩ := hdvd
  induction k generalizing h xs with
  | zero =>
    rw [Nat.mul_zero, List.length_eq_zero_iff] at hk
    rw [hk, foldBlocks, List.length_nil, Nat.zero_div]
    rfl
  | succ k ih =>
    rw [Nat.mul_succ] at hk
    have hle : n ≤ xs.length := by omega
    rw [absorbs_block hn hle, foldBlocks_block hn hle]
    exact ih (by rw [List.length_drop]; omega)

/-! ## The buffer -/

/-- The state behind a stream, and a buffer that begins with what is left. -/
structure Holds (n : ℕ) (f : σ → List α → σ) (iv h : σ) (buf xs : List α) : Prop where
  state : (absorbs n f (iv, []) xs).1 = h
  pending : (absorbs n f (iv, []) xs).2 = buf.take (xs.length % n)
  size : buf.length = n

theorem Holds.absorbs_eq (hh : Holds n f iv h buf xs) :
    absorbs n f (iv, []) xs = (h, buf.take (xs.length % n)) := Prod.ext hh.state hh.pending

/-- At the beginning, whatever the buffer. -/
theorem Holds.start (hsize : buf.length = n) : Holds n f iv iv buf [] where
  state := rfl
  pending := by rw [List.length_nil, Nat.zero_mod, List.take_zero]; rfl
  size := hsize

/-- **More that does not make the block full.** -/
theorem Holds.more (hh : Holds n f iv h buf xs) (hlt : xs.length % n + ys.length < n) :
    Holds n f iv h (overlay buf (xs.length % n) ys) (xs ++ ys) := by
  have hsize := hh.size
  have htake : (buf.take (xs.length % n)).length = xs.length % n :=
    List.length_take_of_le (by omega)
  have hall : absorbs n f (iv, []) (xs ++ ys) = (h, buf.take (xs.length % n) ++ ys) := by
    rw [absorbs_append, hh.absorbs_eq, absorbs_short (by rw [htake]; exact hlt)]
  have hmod : (xs ++ ys).length % n = xs.length % n + ys.length := by
    rw [List.length_append, ← Nat.mod_add_mod]
    exact Nat.mod_eq_of_lt hlt
  refine ⟨by rw [hall], ?_, ?_⟩
  · have hfront : (buf.take (xs.length % n) ++ ys).length = xs.length % n + ys.length := by
      rw [List.length_append, htake]
    rw [hall, hmod, overlay, ← hfront]
    exact List.take_left.symm
  · rw [length_overlay (by omega), hsize]

/-- Only what is left counts in the buffer. -/
theorem Holds.congr (hh : Holds n f iv h buf xs) (hsize : buf'.length = n)
    (htake : buf'.take (xs.length % n) = buf.take (xs.length % n)) : Holds n f iv h buf' xs :=
  ⟨hh.state, hh.pending.trans htake.symm, hsize⟩

/-- What is left behind whole blocks. -/
theorem Holds.rest (hh : Holds n f iv h buf xs) (hmod : xs.length % n = 0)
    (hlt : ys.length < n) : Holds n f iv h (overlay buf 0 ys) (xs ++ ys) := by
  have hmore := hh.more (by rwa [hmod, Nat.zero_add])
  rwa [hmod] at hmore

/-- More may be cleared of the buffer than is behind the blocks. -/
theorem Holds.cleared {m : ℕ} (hh : Holds n f iv h buf xs) (hmod : xs.length % n = 0)
    (hlt : k < n) (hle : k ≤ m) (hm : m ≤ n) :
    Holds n f iv h (overlay buf 0 (List.replicate m zero)) (xs ++ List.replicate k zero) := by
  have hsize := hh.size
  have hmod' : (xs ++ List.replicate k zero).length % n = k := by
    rw [List.length_append, ← Nat.mod_add_mod, hmod, Nat.zero_add, List.length_replicate,
      Nat.mod_eq_of_lt hlt]
  have hrest : Holds n f iv h (overlay buf 0 (List.replicate k zero))
      (xs ++ List.replicate k zero) := hh.rest hmod (by rwa [List.length_replicate])
  refine hrest.congr ?_ ?_
  · rw [length_overlay (by rw [List.length_replicate]; omega), hsize]
  · rw [hmod', overlay, overlay, List.take_zero, List.nil_append, List.nil_append,
      List.take_append_of_le_length (by rw [List.length_replicate]; exact hle),
      List.take_append_of_le_length (by rw [List.length_replicate]), List.take_replicate,
      List.take_replicate, Nat.min_self, Nat.min_eq_left hle]

/-- **What makes the block full**: the buffer is free again. -/
theorem Holds.full (hh : Holds n f iv h buf xs) (hys : ys ≠ [])
    (hlen : xs.length % n + ys.length = n) (hbuf' : buf'.length = n) :
    Holds n f iv (f h (overlay buf (xs.length % n) ys)) buf' (xs ++ ys) := by
  have hsize := hh.size
  have htake : (buf.take (xs.length % n)).length = xs.length % n :=
    List.length_take_of_le (by omega)
  have hover : overlay buf (xs.length % n) ys = buf.take (xs.length % n) ++ ys := by
    rw [overlay, hlen, List.drop_of_length_le (by omega), List.append_nil]
  have hall : absorbs n f (iv, []) (xs ++ ys) = (f h (overlay buf (xs.length % n) ys), []) := by
    rw [absorbs_append, hh.absorbs_eq, absorbs_full hys (by rw [htake, hlen]), hover]
  have hmod : (xs ++ ys).length % n = 0 := by
    rw [List.length_append, ← Nat.mod_add_mod, hlen, Nat.mod_self]
  refine ⟨by rw [hall], ?_, hbuf'⟩
  rw [hall, hmod, List.take_zero]

/-- A whole block, behind whole blocks. -/
theorem Holds.block (hh : Holds n f iv h buf xs) (hn : 0 < n) (hmod : xs.length % n = 0)
    (hlen : ys.length = n) (hbuf' : buf'.length = n) :
    Holds n f iv (f h ys) buf' (xs ++ ys) := by
  have hys : ys ≠ [] := by
    intro hnil
    rw [hnil, List.length_nil] at hlen
    omega
  have hfull := hh.full hys (by rw [hmod, hlen, Nat.zero_add]) hbuf'
  have hover : overlay buf (xs.length % n) ys = ys := by
    rw [overlay, hmod, List.take_zero, List.nil_append, List.drop_of_length_le, List.append_nil]
    rw [hh.size, hlen]
    omega
  rwa [hover] at hfull

/-- Behind whole blocks the state is theirs. -/
theorem Holds.foldBlocks_eq (hh : Holds n f iv h buf xs) (hn : 0 < n) (hdvd : n ∣ xs.length) :
    foldBlocks n f iv xs = h := by
  rw [← hh.state, absorbs_blocks hn hdvd]

/-! ## Padding -/

/-- How many symbols are missing to whole blocks. -/
def missing (n k : ℕ) : ℕ := (n - k % n) % n

theorem dvd_add_missing (hn : 0 < n) : n ∣ k + missing n k := by
  have hle := (Nat.mod_lt k hn).le
  refine Nat.dvd_of_mod_eq_zero ?_
  rw [missing, Nat.add_mod_mod, ← Nat.mod_add_mod, Nat.add_sub_cancel' hle, Nat.mod_self]

theorem missing_lt (hn : 0 < n) : missing n k < n := Nat.mod_lt _ hn

/-- A message with a mark behind it, and a field at the end of the last
block. -/
def padMessage (n : ℕ) (mark zero : α) (field xs : List α) : List α :=
  xs ++ mark :: List.replicate (missing n (xs.length + 1 + field.length)) zero ++ field

theorem length_padMessage : (padMessage n mark zero field xs).length =
    xs.length + 1 + field.length + missing n (xs.length + 1 + field.length) := by
  rw [padMessage, List.length_append, List.length_append, List.length_cons, List.length_replicate]
  omega

/-- **A padded message ends with a block.** -/
theorem dvd_length_padMessage (hn : 0 < n) : n ∣ (padMessage n mark zero field xs).length := by
  rw [length_padMessage]
  exact dvd_add_missing hn

end Common

end Radare
