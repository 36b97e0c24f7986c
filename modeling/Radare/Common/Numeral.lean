import Mathlib.Algebra.Group.Nat.Defs
import Mathlib.Data.List.Basic
import Mathlib.Tactic.Common
/-!
# Numerals

The digits of a number in a base, the highest first, and zeros in front of
them up to a width. Read from left to right they give the number back
(`value_padded`), if there are places enough for it.
-/

namespace Radare

namespace Common

variable {b n w k d : ℕ} {ds : List ℕ}

/-- The digits of a number of at most so many places. -/
def digits (b : ℕ) : ℕ → ℕ → List ℕ
  | 0, _ => []
  | k + 1, n => if n < b then [n] else digits b k (n / b) ++ [n % b]

/-- Zeros in front, up to a width. -/
def padded (w : ℕ) (ds : List ℕ) : List ℕ := List.replicate (w - ds.length) 0 ++ ds

/-- The number that digits stand for. -/
def value (b : ℕ) (ds : List ℕ) : ℕ := ds.foldl (fun v d => v * b + d) 0

theorem value_concat : value b (ds ++ [d]) = value b ds * b + d := by
  unfold value
  rw [List.foldl_append]
  rfl

/-- What was there before counts for all places. -/
theorem foldl_value (b v : ℕ) (ds : List ℕ) :
    ds.foldl (fun v d => v * b + d) v = v * b ^ ds.length + value b ds := by
  induction ds generalizing v with
  | nil => rw [List.length_nil, Nat.pow_zero, Nat.mul_one]; rfl
  | cons d ds ih =>
    have hzero : value b (d :: ds) = (0 * b + d) * b ^ ds.length + value b ds := ih (0 * b + d)
    rw [List.foldl_cons, ih, hzero, List.length_cons, Nat.pow_succ', Nat.zero_mul, Nat.zero_add,
      Nat.add_mul, Nat.mul_assoc, Nat.add_assoc]

/-- The first digit counts for all places behind it. -/
theorem value_cons (b d : ℕ) (ds : List ℕ) :
    value b (d :: ds) = d * b ^ ds.length + value b ds := by
  have hstart : value b (d :: ds) = ds.foldl (fun v d => v * b + d) (0 * b + d) := rfl
  rw [hstart, foldl_value, Nat.zero_mul, Nat.zero_add]

/-- Digits are a number below the power with as many. -/
theorem value_lt_pow (hds : ∀ d ∈ ds, d < b) : value b ds < b ^ ds.length := by
  induction ds with
  | nil => exact Nat.one_pos
  | cons d ds ih =>
    have hrest := ih fun e he => hds e (List.mem_cons_of_mem _ he)
    have hd : d + 1 ≤ b := hds d List.mem_cons_self
    rw [value_cons, List.length_cons, Nat.pow_succ']
    calc d * b ^ ds.length + value b ds < d * b ^ ds.length + b ^ ds.length :=
          Nat.add_lt_add_left hrest _
      _ = (d + 1) * b ^ ds.length := (Nat.succ_mul d _).symm
      _ ≤ b * b ^ ds.length := Nat.mul_le_mul_right _ hd

/-- **Digits are read back.** -/
theorem value_digits (hn : n < b ^ k) : value b (digits b k n) = n := by
  induction k generalizing n with
  | zero =>
    rw [Nat.pow_zero, Nat.lt_one_iff] at hn
    rw [hn]
    rfl
  | succ k ih =>
    unfold digits
    split_ifs with hlt
    · simp [value]
    · have hdiv : n / b < b ^ k := Nat.div_lt_of_lt_mul (by rwa [Nat.pow_succ'] at hn)
      rw [value_concat, ih hdiv, Nat.div_add_mod']

theorem value_zeros : value b (List.replicate w 0 ++ ds) = value b ds := by
  induction w with
  | zero => rfl
  | succ w ih =>
    rw [List.replicate_succ, List.cons_append, ← ih]
    unfold value
    rw [List.foldl_cons, Nat.zero_mul]

/-- **A numeral is read back**, whatever its width. -/
theorem value_padded (hn : n < b ^ k) : value b (padded w (digits b k n)) = n := by
  unfold padded
  rw [value_zeros, value_digits hn]

theorem lt_of_mem_digits (hb : 0 < b) (hd : d ∈ digits b k n) : d < b := by
  induction k generalizing n with
  | zero => cases hd
  | succ k ih =>
    unfold digits at hd
    split_ifs at hd with hlt
    · rwa [List.mem_singleton.mp hd]
    · rcases List.mem_append.mp hd with hd | hd
      · exact ih hd
      · rw [List.mem_singleton.mp hd]
        exact Nat.mod_lt _ hb

theorem lt_of_mem_padded (hb : 0 < b) (hd : d ∈ padded w (digits b k n)) : d < b := by
  rcases List.mem_append.mp hd with hd | hd
  · rwa [List.eq_of_mem_replicate hd]
  · exact lt_of_mem_digits hb hd

theorem length_digits_le : (digits b k n).length ≤ k := by
  induction k generalizing n with
  | zero => exact Nat.le_refl 0
  | succ k ih =>
    unfold digits
    split_ifs
    · exact Nat.le_add_left 1 k
    · rw [List.length_append, List.length_singleton]
      exact Nat.succ_le_succ ih

theorem length_digits_le_of_lt {m : ℕ} (hm : 0 < m) (hn : n < b ^ m) :
    (digits b k n).length ≤ m := by
  induction k generalizing n m with
  | zero => exact Nat.zero_le m
  | succ k ih =>
    rw [digits]
    split_ifs with hlt
    · exact hm
    · obtain ⟨m, rfl⟩ := Nat.exists_eq_succ_of_ne_zero (show m ≠ 0 by omega)
      have hmore : 0 < m := by
        refine Nat.pos_of_ne_zero ?_
        rintro rfl
        rw [Nat.pow_one] at hn
        exact hlt hn
      have hdiv : n / b < b ^ m := Nat.div_lt_of_lt_mul (by rwa [Nat.pow_succ'] at hn)
      rw [List.length_append, List.length_singleton]
      exact Nat.succ_le_succ (ih hmore hdiv)

theorem length_padded : (padded w ds).length = max w ds.length := by
  unfold padded
  rw [List.length_append, List.length_replicate]
  omega

theorem padded_ne_nil (hw : 0 < w) : padded w ds ≠ [] := by
  intro h
  have := congrArg List.length h
  rw [length_padded, List.length_nil] at this
  omega

/-- A numeral of two places. -/
theorem padded_digits_two (hn : n < b * b) : padded 2 (digits b (k + 2) n) = [n / b, n % b] := by
  unfold digits
  split_ifs with hlt
  · rw [Nat.div_eq_of_lt hlt, Nat.mod_eq_of_lt hlt]
    rfl
  · have hdiv : n / b < b := Nat.div_lt_of_lt_mul hn
    unfold digits
    rw [if_pos hdiv]
    rfl

end Common

end Radare
