import Mathlib.Data.FinEnum
import Mathlib.Order.Defs.LinearOrder
/-!
# Machine words

The source's `ut64` and `u8` are Lean's `UInt64` and `UInt8`, arithmetic
wrapping as it does in C. What is missing for them in the library is the
linear order as Mathlib states it, which the interval lemmas read.
-/

namespace Radare

/-- `unsigned long long`. -/
abbrev ut64 := UInt64

/-- `unsigned char`. -/
abbrev u8 := UInt8

instance : LinearOrder ut64 where
  le_refl := UInt64.le_refl
  le_trans _ _ _ := UInt64.le_trans
  le_antisymm _ _ := UInt64.le_antisymm
  le_total := UInt64.le_total
  lt_iff_le_not_ge a b := by
    rw [UInt64.not_le, UInt64.le_iff_toNat_le, UInt64.lt_iff_toNat_lt]
    omega
  toDecidableLE := inferInstance
  toDecidableEq := inferInstance
  toDecidableLT := inferInstance

end Radare
