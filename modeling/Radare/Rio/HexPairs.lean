import Radare.Rio.HexText
/-!
# Hexadecimal pairs

Bytes printed as pairs of digits are a text that renders them
(`renders_hexPairs`). So they are what `hexstr2binstr` reads back
(`hexstr2binstr_hexPairs`), whatever their number.
-/

namespace Radare

open Common

variable {key out : List u8}

/-- Bytes printed in pairs of digits. -/
def hexPairs (key : List u8) : List u8 := key.flatMap fun b => hexText 2 b.toUInt64

theorem hexPairs_cons (b : u8) (key : List u8) :
    hexPairs (b :: key) = digitChar (b.toNat / 16) :: digitChar (b.toNat % 16) :: hexPairs key := by
  unfold hexPairs
  rw [List.flatMap_cons, hexText_two]
  rfl

theorem length_hexPairs : (hexPairs key).length = 2 * key.length := by
  induction key with
  | nil => rfl
  | cons b key ih =>
    rw [hexPairs_cons, List.length_cons, List.length_cons, ih, List.length_cons]
    omega

/-- **The pairs render the bytes.** -/
theorem renders_hexPairs (key : List u8) :
    significant (hexPairs key) = hexPairs key ∧ Renders (hexPairs key) key := by
  have hboth : significant (hexPairs key) = hexPairs key ∧
      (hexPairs key).map hexDigit = (nibbles key).map some := by
    induction key with
    | nil => exact ⟨rfl, rfl⟩
    | cons b key ih =>
      have hlt := b.toNat_lt
      have hupper := hexDigit_digitChar (show b.toNat / 16 < 16 by omega)
      have hlower := hexDigit_digitChar (show b.toNat % 16 < 16 by omega)
      rw [hexPairs_cons, nibbles_cons]
      refine ⟨?_, ?_⟩
      · rw [significant_cons (ne_of_digit hupper).1, significant_cons (ne_of_digit hlower).1, ih.1]
      · rw [List.map_cons, List.map_cons, hupper, hlower, ih.2]
        rfl
  refine ⟨hboth.1, ?_⟩
  unfold Renders
  rw [hboth.1]
  exact hboth.2

/-- **Pairs of digits are read back.** The output is anywhere behind the
text, and has room for the bytes. -/
theorem hexstr2binstr_hexPairs (getMath : List u8 → ut64) (behind : List u8)
    (hout : key.length ≤ out.length) :
    ∃ out', hexstr2binstr getMath (hexPairs key ++ 0 :: behind ++ out) 0
        (hexPairs key ++ 0 :: behind).length =
        some (key.length, hexPairs key ++ 0 :: behind ++ out') ∧
      out'.take key.length = key := by
  obtain ⟨hsame, hrenders⟩ := renders_hexPairs key
  have hplace : HexPlace (hexPairs key ++ 0 :: behind ++ out) 0
      (hexPairs key ++ 0 :: behind).length (hexPairs key) := by
    refine ⟨⟨behind ++ out, by simp⟩, ?_, Or.inr ?_⟩
    · rw [hsame, length_hexPairs]
      simp only [List.length_append]
      omega
    · rw [Nat.zero_add, List.length_append, List.length_cons]
      omega
  refine ⟨key ++ out.drop key.length, ?_, List.take_left⟩
  rw [hplace.renders getMath hrenders]
  unfold overlay
  rw [List.take_left, List.drop_append, List.drop_eq_nil_of_le (Nat.le_add_right _ _),
    Nat.add_sub_cancel_left, List.nil_append, List.append_assoc]

end Radare
