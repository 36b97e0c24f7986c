import Mathlib.Data.List.Basic
import Mathlib.Data.Nat.Notation
/-!
# Shift registers

The remainder of a polynomial division, held in a register that moves up by
a bit (`shiftUp`) or, with everything reversed, down (`shiftDown`). Moving
down is linear, so eight moves are those of the low byte and a plain shift
of the rest (`shiftDowns_eight`): what a table of 256 words is read for.

Reversing is done in place, by exchanging one bit with its mirror image after
the other (`reverseLow`).
-/

namespace Radare.Common

variable {w : ℕ} {p x y : BitVec w} {i j k n : ℕ}

/-- The highest bit leaves, and what it stands for is taken off. -/
def shiftUp (p x : BitVec w) : BitVec w := (if x.msb then p else 0#w) ^^^ (x <<< 1)

/-- The lowest bit leaves. -/
def shiftDown (p x : BitVec w) : BitVec w := (if x.getLsbD 0 then p else 0#w) ^^^ (x >>> 1)

/-- `n` moves down. -/
def shiftDowns (p : BitVec w) : ℕ → BitVec w → BitVec w
  | 0, x => x
  | n + 1, x => shiftDowns p n (shiftDown p x)

/-- `n` moves up. -/
def shiftUps (p : BitVec w) : ℕ → BitVec w → BitVec w
  | 0, x => x
  | n + 1, x => shiftUps p n (shiftUp p x)

theorem reverse_xor : (x ^^^ y).reverse = x.reverse ^^^ y.reverse := by
  refine BitVec.eq_of_getLsbD_eq fun i hi => ?_
  simp only [BitVec.getLsbD_reverse, BitVec.getLsbD_xor, BitVec.getMsbD_xor]

theorem reverse_zero : (0#w).reverse = 0#w := BitVec.reverse_eq_zero_iff.mpr rfl

theorem reverse_shiftLeft : (x <<< n).reverse = x.reverse >>> n := by
  refine BitVec.eq_of_getLsbD_eq fun i hi => ?_
  simp only [BitVec.getLsbD_reverse, BitVec.getLsbD_ushiftRight, BitVec.getMsbD_shiftLeft,
    Nat.add_comm n i]

/-- **Moving up is moving down in the mirror.** -/
theorem reverse_shiftUp : (shiftUp p x).reverse = shiftDown p.reverse x.reverse := by
  have hbit : x.reverse.getLsbD 0 = x.msb := BitVec.getLsbD_reverse
  rw [shiftUp, shiftDown, reverse_xor, reverse_shiftLeft, hbit]
  cases x.msb
  · rw [if_neg Bool.false_ne_true, if_neg Bool.false_ne_true, reverse_zero]
  · rw [if_pos rfl, if_pos rfl]

theorem reverse_shiftUps : (shiftUps p n x).reverse = shiftDowns p.reverse n x.reverse := by
  induction n generalizing x with
  | zero => rfl
  | succ n ih => rw [shiftUps, shiftDowns, ih, reverse_shiftUp]

theorem shiftDown_xor : shiftDown p (x ^^^ y) = shiftDown p x ^^^ shiftDown p y := by
  refine BitVec.eq_of_getLsbD_eq fun i hi => ?_
  simp only [shiftDown, BitVec.getLsbD_xor, BitVec.ushiftRight_xor_distrib]
  cases x.getLsbD 0 <;> cases y.getLsbD 0 <;> cases p.getLsbD i <;>
    simp [Bool.xor_comm, Bool.xor_left_comm, *]

theorem shiftDowns_xor : shiftDowns p n (x ^^^ y) = shiftDowns p n x ^^^ shiftDowns p n y := by
  induction n generalizing x y with
  | zero => rfl
  | succ n ih => rw [shiftDowns, shiftDown_xor, ih, shiftDowns, shiftDowns]

/-- A move after the others is a move before them. -/
theorem shiftDown_shiftDowns : shiftDown p (shiftDowns p n x) = shiftDowns p n (shiftDown p x) := by
  induction n generalizing x with
  | zero => rfl
  | succ n ih => rw [shiftDowns, ih, shiftDowns]

/-- If a zero leaves, the register just moves. -/
theorem shiftDown_low (hlow : x.getLsbD 0 = false) : shiftDown p x = x >>> 1 := by
  rw [shiftDown, hlow, if_neg Bool.false_ne_true, BitVec.zero_xor]

theorem shiftDowns_high (h : ∀ i < n, x.getLsbD i = false) : shiftDowns p n x = x >>> n := by
  induction n generalizing x with
  | zero => rw [shiftDowns, BitVec.ushiftRight_zero]
  | succ n ih =>
    have hlow : x.getLsbD 0 = false := h 0 (by omega)
    have hrest : ∀ i < n, (x >>> 1).getLsbD i = false := by
      intro i hi
      rw [BitVec.getLsbD_ushiftRight]
      exact h (1 + i) (by omega)
    rw [shiftDowns, shiftDown_low hlow, ih hrest, ← BitVec.shiftRight_add, Nat.add_comm]

/-- The mask of the low byte. -/
theorem getLsbD_low_byte (hi : i < w) : (255#w).getLsbD i = decide (i < 8) := by
  have hmask : (255 : ℕ) = 2 ^ 8 - 1 := rfl
  rw [BitVec.getLsbD_ofNat, hmask, Nat.testBit_two_pow_sub_one]
  simp only [hi, decide_true, Bool.true_and]

/-- **A byte at a time**: eight moves are those of the low byte, and a plain
shift of the rest. -/
theorem shiftDowns_eight (x : BitVec w) :
    shiftDowns p 8 x = (x >>> 8) ^^^ shiftDowns p 8 (x &&& 255#w) := by
  have hsplit : x = (x &&& ~~~255#w) ^^^ (x &&& 255#w) := by
    refine BitVec.eq_of_getLsbD_eq fun i hi => ?_
    simp only [BitVec.getLsbD_xor, BitVec.getLsbD_and, BitVec.getLsbD_not, hi]
    cases x.getLsbD i <;> cases (255#w).getLsbD i <;> rfl
  have hhigh : ∀ i < 8, (x &&& ~~~255#w).getLsbD i = false := by
    intro i hi
    rw [BitVec.getLsbD_and, BitVec.getLsbD_not]
    by_cases hw : i < w
    · rw [getLsbD_low_byte hw]
      simp [hi]
    · simp [hw]
  have hshift : (x &&& ~~~255#w) >>> 8 = x >>> 8 := by
    refine BitVec.eq_of_getLsbD_eq fun i hi => ?_
    rw [BitVec.getLsbD_ushiftRight, BitVec.getLsbD_ushiftRight, BitVec.getLsbD_and,
      BitVec.getLsbD_not]
    by_cases hw : 8 + i < w
    · rw [getLsbD_low_byte hw]
      simp [hw]
    · rw [BitVec.getLsbD_of_ge x (8 + i) (by omega)]
      rfl
  conv => lhs; rw [hsplit]
  rw [shiftDowns_xor, shiftDowns_high hhigh, hshift]

/-- What a table of the low bytes holds. -/
def IsTable (p : BitVec w) (t : List (BitVec w)) : Prop :=
  ∀ i < 256, t.getD i 0#w = shiftDowns p 8 (BitVec.ofNat w i)

/-- The table, word by word. -/
def byteTable (p : BitVec w) : List (BitVec w) :=
  (List.range 256).map fun i => shiftDowns p 8 (BitVec.ofNat w i)

theorem isTable_byteTable : IsTable p (byteTable p) := by
  intro i hi
  rw [byteTable, List.getD_eq_getElem?_getD, List.getElem?_map, List.getElem?_range hi]
  rfl

/-- **The table's word for the low byte**, and the rest moved down by eight:
eight moves of the register with a byte taken in. -/
theorem shiftDowns_table {t : List (BitVec w)} (ht : IsTable p t) (hw : 8 ≤ w) (b : BitVec 8) :
    (x >>> 8) ^^^ t.getD ((x ^^^ b.setWidth w) &&& 255#w).toNat 0#w =
      shiftDowns p 8 (x ^^^ b.setWidth w) := by
  have hbyte : (b.setWidth w) >>> 8 = 0#w := by
    refine BitVec.eq_of_getLsbD_eq fun i hi => ?_
    simp
  have hmask : (255#w).toNat = 255 := by
    have hpow : 2 ^ 8 ≤ 2 ^ w := Nat.pow_le_pow_right (by omega) hw
    rw [BitVec.toNat_ofNat, Nat.mod_eq_of_lt (by omega)]
  have hindex : ((x ^^^ b.setWidth w) &&& 255#w).toNat < 256 := by
    have hle : (x ^^^ b.setWidth w).toNat &&& 255 ≤ 255 := Nat.and_le_right
    rw [BitVec.toNat_and, hmask]
    omega
  rw [shiftDowns_eight, ht _ hindex, BitVec.ofNat_toNat, BitVec.setWidth_eq,
    BitVec.ushiftRight_xor_distrib, hbyte, BitVec.xor_zero]

/-! ## Reversing in place -/

/-- The bits `j` and `k` change places, when they differ. -/
def swapBits (x : BitVec w) (j k : ℕ) : BitVec w :=
  if ((x >>> j) ^^^ (x >>> k)) &&& 1#w ≠ 0#w then x ^^^ ((1#w <<< j) ^^^ (1#w <<< k)) else x

/-- The first `m` of the low `n` bits change places with their images. -/
def reverseLow (n : ℕ) : ℕ → BitVec w → BitVec w
  | 0, x => x
  | m + 1, x => swapBits (reverseLow n m x) m (n - 1 - m)

theorem and_one_ne_zero (hw : 0 < w) : x &&& 1#w ≠ 0#w ↔ x.getLsbD 0 = true := by
  rw [BitVec.and_one_eq_setWidth_ofBool_getLsbD]
  cases x.getLsbD 0
  · simp
  · simp only [BitVec.ofBool_true, ne_eq, iff_true]
    intro h
    have hbit := congrArg (fun y => BitVec.getLsbD y 0) h
    simp [hw] at hbit

theorem getLsbD_one_shiftLeft (hi : i < w) : (1#w <<< j).getLsbD i = decide (i = j) := by
  have hone : (1#w).getLsbD (i - j) = decide (i - j = 0) := by
    rw [BitVec.getLsbD_one]
    simp [show 0 < w by omega]
  rw [BitVec.getLsbD_shiftLeft, hone]
  by_cases hij : i < j
  · simp [hi, hij, show i ≠ j by omega]
  · simp [hi, hij]
    omega

theorem getLsbD_swapBits (hj : j < w) (hk : k < w) (hjk : j ≠ k) (hi : i < w) :
    (swapBits x j k).getLsbD i =
      if i = j then x.getLsbD k else if i = k then x.getLsbD j else x.getLsbD i := by
  have hlow : ((x >>> j) ^^^ (x >>> k)).getLsbD 0 = (x.getLsbD j ^^ x.getLsbD k) := by
    rw [BitVec.getLsbD_xor, BitVec.getLsbD_ushiftRight, BitVec.getLsbD_ushiftRight,
      Nat.add_zero, Nat.add_zero]
  have hmask : ((1#w <<< j) ^^^ (1#w <<< k)).getLsbD i = (decide (i = j) ^^ decide (i = k)) := by
    rw [BitVec.getLsbD_xor, getLsbD_one_shiftLeft hi, getLsbD_one_shiftLeft hi]
  rw [swapBits]
  simp only [and_one_ne_zero (show 0 < w by omega), hlow]
  by_cases hij : i = j
  · subst hij
    cases hx : x.getLsbD i <;> cases hy : x.getLsbD k <;> simp [hmask, hx, hjk]
  · by_cases hik : i = k
    · subst hik
      cases hx : x.getLsbD j <;> cases hy : x.getLsbD i <;> simp [hmask, hy, hij]
    · cases x.getLsbD j <;> cases x.getLsbD k <;> simp [hmask, hij, hik]

theorem getLsbD_reverseLow (hn : n ≤ w) {m : ℕ} (hm : 2 * m ≤ n) (hi : i < w) :
    (reverseLow n m x).getLsbD i =
      if i < m ∨ n - m ≤ i ∧ i < n then x.getLsbD (n - 1 - i) else x.getLsbD i := by
  induction m generalizing i with
  | zero => rw [reverseLow, if_neg (by omega)]
  | succ m ih =>
    have hstep := fun i => ih (i := i) (show 2 * m ≤ n by omega)
    rw [reverseLow, getLsbD_swapBits (by omega) (by omega) (by omega) hi]
    by_cases hlow : i = m
    · rw [if_pos hlow, hstep _ (by omega), if_neg (by omega), if_pos (by omega), hlow]
    · rw [if_neg hlow]
      by_cases hhigh : i = n - 1 - m
      · rw [if_pos hhigh, hstep _ (by omega), if_neg (by omega), if_pos (by omega), hhigh]
        congr 1
        omega
      · rw [if_neg hhigh, hstep i hi]
        by_cases hin : i < m ∨ n - m ≤ i ∧ i < n
        · rw [if_pos hin, if_pos (by omega)]
        · rw [if_neg hin, if_neg (by omega)]

/-- **Half of the bits exchanged reverses the low `n` bits.** -/
theorem setWidth_reverseLow (hn : n ≤ w) :
    (reverseLow n (n / 2) x).setWidth n = (x.setWidth n).reverse := by
  refine BitVec.eq_of_getLsbD_eq fun i hi => ?_
  have hin : i < w := by omega
  rw [BitVec.getLsbD_setWidth, BitVec.getLsbD_reverse, BitVec.getMsbD_eq_getLsbD,
    BitVec.getLsbD_setWidth, getLsbD_reverseLow hn (by omega) hin]
  by_cases hmid : i < n / 2 ∨ n - n / 2 ≤ i ∧ i < n
  · rw [if_pos hmid]
    simp [hi, show n - 1 - i < n by omega]
  · have hself : n - 1 - i = i := by omega
    rw [if_neg hmid, hself]
    simp [hi]

end Radare.Common
