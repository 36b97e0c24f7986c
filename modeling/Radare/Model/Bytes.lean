import Mathlib.Algebra.GroupWithZero.Nat
import Radare.Model.Word
/-!
# Numbers as bytes

A number of so many bytes, the lowest first, and what is read back of it; and
what the system gives of bytes: memory, and the most that one `read` takes.
-/

namespace Radare

variable {bs : List u8}

/-- `malloc`: bytes of no known value, which `fresh` gives one. -/
def malloc (fresh : ℕ → u8) (len : ℕ) : List u8 := (List.range len).map fresh

theorem length_malloc (fresh : ℕ → u8) (k : ℕ) : (malloc fresh k).length = k := by
  rw [malloc, List.length_map, List.length_range]

/-- The most that one `read` or `write` transfers. -/
def readMost : ℕ := 0x7ffff000

/-- The bytes of a number, the lowest first. -/
def bytesOf : ℕ → ℕ → List u8
  | 0, _ => []
  | k + 1, n => UInt8.ofNat n :: bytesOf k (n / 256)

def ofBytes : List u8 → ℕ
  | [] => 0
  | b :: bs => b.toNat + 256 * ofBytes bs

theorem ofBytes_bytesOf (k n : ℕ) : ofBytes (bytesOf k n) = n % 256 ^ k := by
  induction k generalizing n with
  | zero =>
    rw [Nat.pow_zero, Nat.mod_one]
    rfl
  | succ k ih =>
    have hpow : 256 ^ (k + 1) = 256 * 256 ^ k := Nat.pow_succ'
    rw [bytesOf, ofBytes, ih, hpow, Nat.mod_mul]
    rfl

theorem length_bytesOf (k n : ℕ) : (bytesOf k n).length = k := by
  induction k generalizing n with
  | zero => rfl
  | succ k ih => rw [bytesOf, List.length_cons, ih]

/-- Every byte by itself. -/
theorem bytesOf_eq_map (k n : ℕ) :
    bytesOf k n = (List.range k).map fun i => UInt8.ofNat (n / 256 ^ i) := by
  induction k generalizing n with
  | zero => rfl
  | succ k ih =>
    rw [bytesOf, ih, List.range_succ_eq_map, List.map_cons, List.map_map, Nat.pow_zero, Nat.div_one]
    refine congrArg _ (List.map_congr_left fun i _ => ?_)
    rw [Function.comp_apply, Nat.pow_succ', Nat.div_div_eq_div_mul]

/-- The lower bytes, and those above. -/
theorem bytesOf_add (j k n : ℕ) : bytesOf (j + k) n = bytesOf j n ++ bytesOf k (n / 256 ^ j) := by
  induction j generalizing n with
  | zero => rw [Nat.zero_add, Nat.pow_zero, Nat.div_one]; rfl
  | succ j ih =>
    rw [Nat.succ_add, bytesOf, ih, bytesOf, Nat.div_div_eq_div_mul, ← Nat.pow_succ', List.cons_append]

/-- The bytes of a number are those of its remainder. -/
theorem bytesOf_mod (k n : ℕ) : bytesOf k (n % 256 ^ k) = bytesOf k n := by
  induction k generalizing n with
  | zero => rfl
  | succ k ih =>
    have hlow : UInt8.ofNat (n % 256 ^ (k + 1)) = UInt8.ofNat n := by
      refine UInt8.toNat_inj.mp ?_
      rw [UInt8.toNat_ofNat', UInt8.toNat_ofNat', Nat.pow_succ', Nat.mod_mul_right_mod]
    have hhigh : n % 256 ^ (k + 1) / 256 = n / 256 % 256 ^ k := by
      rw [Nat.pow_succ', Nat.mod_mul_right_div_self]
    rw [bytesOf, bytesOf, hlow, hhigh, ih]

theorem bytesOf_ofBytes : bytesOf bs.length (ofBytes bs) = bs := by
  induction bs with
  | nil => rfl
  | cons b bs ih =>
    have hlt := b.toNat_lt
    have hhead : UInt8.ofNat (b.toNat + 256 * ofBytes bs) = b := by
      refine UInt8.toNat_inj.mp ?_
      rw [UInt8.toNat_ofNat']
      omega
    have htail : (b.toNat + 256 * ofBytes bs) / 256 = ofBytes bs := by omega
    rw [List.length_cons, ofBytes, bytesOf, hhead, htail, ih]

theorem ofBytes_lt : ofBytes bs < 256 ^ bs.length := by
  have h := ofBytes_bytesOf bs.length (ofBytes bs)
  rw [bytesOf_ofBytes] at h
  rw [h]
  exact Nat.mod_lt _ (Nat.pow_pos (by omega))

end Radare
