import Mathlib.Data.List.GetD
import Mathlib.Data.List.Nodup
import Mathlib.Data.List.Range
import Mathlib.Tactic.Common
/-!
# Where two lists differ

The places where two lists differ, in order (`differing`), as they are found
block by block (`differing_add`). Putting the entries of the one there into the
other makes them equal that far (`putEach_differing`).
-/

namespace Radare.Common

variable {α : Type*} [DecidableEq α] {a b : List α} {d : α} {n k x : ℕ}

/-- The places from `n` on, so many, where two lists differ. -/
def differing (d : α) (a b : List α) (n k : ℕ) : List ℕ :=
  (List.range' n k).filter fun x => a.getD x d ≠ b.getD x d

/-- Entries put at places, one after the other. -/
def putEach (l : List α) (ps : List (ℕ × α)) : List α := ps.foldl (fun l p => l.set p.1 p.2) l

omit [DecidableEq α] in
theorem putEach_append {l : List α} {ps qs : List (ℕ × α)} :
    putEach l (ps ++ qs) = putEach (putEach l ps) qs := List.foldl_append

theorem differing_zero : differing d a b n 0 = [] := rfl

theorem differing_cons :
    differing d a b n (k + 1) =
      (if a.getD n d ≠ b.getD n d then [n] else []) ++ differing d a b (n + 1) k := by
  rw [differing, List.range'_succ, List.filter_cons]
  by_cases h : a.getD n d = b.getD n d
  · rw [if_neg (by simpa using h), if_neg (not_not.mpr h), List.nil_append]
    rfl
  · rw [if_pos (by simpa using h), if_pos h, List.singleton_append]
    rfl

/-- **Block by block.** -/
theorem differing_add (m : ℕ) :
    differing d a b n (k + m) = differing d a b n k ++ differing d a b (n + k) m := by
  rw [differing, ← List.range'_append_1, List.filter_append]
  rfl

theorem mem_differing :
    x ∈ differing d a b n k ↔ (n ≤ x ∧ x < n + k) ∧ a.getD x d ≠ b.getD x d := by
  rw [differing, List.mem_filter, List.mem_range'_1, decide_eq_true_iff]

theorem nodup_differing : (differing d a b n k).Nodup := (List.nodup_range' _).filter _

/-- **The differing entries put down**: the lists are equal that far. -/
theorem putEach_differing (ha : n ≤ a.length) (hb : n ≤ b.length) :
    putEach a ((differing d a b 0 n).map fun x => (x, b.getD x d)) = b.take n ++ a.drop n := by
  induction n with
  | zero => rfl
  | succ n ih =>
    have hfront : (b.take n).length = n := List.length_take_of_le (by omega)
    have hnext : a.drop n = a.getD n d :: a.drop (n + 1) := by
      rw [List.drop_eq_getElem_cons ha, List.getD_eq_getElem _ _ ha]
    have htake : b.take (n + 1) = b.take n ++ [b.getD n d] := by
      rw [List.take_succ_eq_append_getElem hb, List.getD_eq_getElem _ _ hb]
    rw [differing_add, Nat.zero_add, List.map_append, putEach_append, ih (by omega) (by omega),
      differing_cons, differing_zero, List.append_nil, hnext, htake, List.append_assoc,
      List.singleton_append]
    by_cases hne : a.getD n d ≠ b.getD n d
    · rw [if_pos hne, List.map_singleton, putEach, List.foldl_cons, List.foldl_nil,
        List.set_append_right _ _ (by omega), hfront, Nat.sub_self, List.set_cons_zero]
    · rw [if_neg hne, List.map_nil, putEach, List.foldl_nil, not_not.mp hne]

end Radare.Common
