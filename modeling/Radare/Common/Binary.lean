import Mathlib.Data.List.Induction
import Mathlib.Data.Nat.Bitwise
import Radare.Common.Numeral
/-!
# Digits that are bits

A list of bits, the highest first, is a number in any base. In a base that is a
power of two its bits are those of the list, and zeros between them
(`testBit_value`), so that two such numbers can be compared bit by bit.
-/

namespace Radare

namespace Common

/-- Bits as digits. -/
def bitDigits (l : List Bool) : List ℕ := l.map Bool.toNat

/-- A bit from the right. -/
def bitAt (l : List Bool) (k : ℕ) : Bool := l.reverse.getD k false

variable {l : List Bool} {b : Bool} {m n k : ℕ}

theorem bitAt_concat_zero : bitAt (l ++ [b]) 0 = b := by
  unfold bitAt
  rw [List.reverse_append]
  rfl

theorem bitAt_concat_succ : bitAt (l ++ [b]) (k + 1) = bitAt l k := by
  unfold bitAt
  rw [List.reverse_append]
  rfl

theorem bitAt_of_length_le (h : l.length ≤ k) : bitAt l k = false := by
  unfold bitAt
  exact List.getD_eq_default _ _ (by rwa [List.length_reverse])

/-- The first bit is the last one from the right. -/
theorem bitAt_head : bitAt (b :: l) l.length = b := by
  unfold bitAt
  rw [List.reverse_cons, List.getD_eq_getElem?_getD, List.getElem?_append_right (by simp)]
  simp

theorem toNat_testBit : b.toNat.testBit k = (decide (k = 0) && b) := by
  cases k with
  | zero => cases b <;> rfl
  | succ k =>
    have hlt : b.toNat < 2 ^ (k + 1) :=
      lt_of_le_of_lt (Bool.toNat_le b) (Nat.one_lt_two_pow (Nat.succ_ne_zero k))
    rw [Nat.testBit_lt_two_pow hlt, decide_eq_false (Nat.succ_ne_zero k), Bool.false_and]

/-- **The bits of a number** whose digits are bits. -/
theorem testBit_value (hm : 0 < m) :
    (value (2 ^ m) (bitDigits l)).testBit k = (decide (m ∣ k) && bitAt l (k / m)) := by
  induction l using List.reverseRecOn generalizing k with
  | nil =>
    have hzero : bitAt [] (k / m) = false := bitAt_of_length_le (Nat.zero_le _)
    rw [hzero, Bool.and_false]
    exact Nat.zero_testBit k
  | append_singleton l b ih =>
    have hdigits : bitDigits (l ++ [b]) = bitDigits l ++ [b.toNat] := List.map_append
    have hsmall : b.toNat < 2 ^ m := by
      have hle := Bool.toNat_le b
      have hpow := Nat.one_lt_two_pow hm.ne'
      omega
    rw [hdigits, value_concat, Nat.mul_comm, Nat.testBit_two_pow_mul_add _ hsmall]
    by_cases hlow : k < m
    · rw [if_pos hlow, toNat_testBit, Nat.div_eq_of_lt hlow, bitAt_concat_zero]
      by_cases hk : k = 0
      · rw [decide_eq_true hk, decide_eq_true (hk ▸ Nat.dvd_zero m)]
      · have hnot : ¬m ∣ k := fun h => hk (Nat.eq_zero_of_dvd_of_lt h hlow)
        rw [decide_eq_false hk, decide_eq_false hnot]
    · have hle : m ≤ k := Nat.le_of_not_lt hlow
      have hdiv : k / m = (k - m) / m + 1 := Nat.div_eq_sub_div hm hle
      have hdvd : m ∣ k - m ↔ m ∣ k := (Nat.dvd_sub_iff_left hle (Nat.dvd_refl m))
      rw [if_neg hlow, ih, hdiv, bitAt_concat_succ, decide_eq_decide.mpr hdvd]

theorem testBit_value_two : (value 2 (bitDigits l)).testBit k = bitAt l k := by
  have h := testBit_value (l := l) (k := k) Nat.one_pos
  rw [Nat.pow_one, Nat.div_one, decide_eq_true (Nat.one_dvd k), Bool.true_and] at h
  exact h

theorem value_two_lt : value 2 (bitDigits l) < 2 ^ l.length := by
  refine Nat.lt_pow_two_of_testBit _ fun k hk => ?_
  rw [testBit_value_two, bitAt_of_length_le hk]

/-- Bits of which none is one but the last. -/
theorem value_two_le_one_iff : value 2 (bitDigits l) ≤ 1 ↔ ∀ k, 0 < k → bitAt l k = false := by
  constructor
  · intro h k hk
    have hlt : value 2 (bitDigits l) < 2 ^ k :=
      lt_of_le_of_lt h (Nat.one_lt_two_pow hk.ne')
    rw [← testBit_value_two, Nat.testBit_lt_two_pow hlt]
  · intro h
    have hlt : value 2 (bitDigits l) < 2 ^ 1 := by
      refine Nat.lt_pow_two_of_testBit _ fun k hk => ?_
      rw [testBit_value_two]
      exact h k hk
    omega

end Common

end Radare
