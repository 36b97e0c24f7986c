import Mathlib.Data.UInt
import Radare.Common.Lines
import Radare.Common.Numeral
import Radare.Model.Word
/-!
# Texts

A C string is the list of its characters, without the NUL behind them.
The numbers printed are unsigned, with `%0wd` and `%0wllx`; a hexadecimal
one is read back (`hexValue_hexText`).
-/

namespace Radare

open Common

/-- The text at an address: up to the NUL. -/
def cstr (mem : List u8) : List u8 := mem.takeWhile (· ≠ 0)

/-- `strcpy` to an offset. -/
def strcpyAt (mem : List u8) (off : ℕ) (src : List u8) : Option (List u8) :=
  if off + src.length + 1 ≤ mem.length then
    some (mem.take off ++ src ++ 0 :: mem.drop (off + src.length + 1))
  else none

/-- `strcpy` inside one memory, of a text to a place in front of it. What it does
is not defined where the two overlap. -/
def strcpyWithin (mem : List u8) (dst src : ℕ) : Option (List u8) :=
  if 0 ∈ mem.drop src ∧ dst + (cstr (mem.drop src)).length < src then
    strcpyAt mem dst (cstr (mem.drop src))
  else none

/-- A digit as it is printed. -/
def digitChar (d : ℕ) : u8 := UInt8.ofNat (if d < 10 then 48 + d else 87 + d)

/-- `%0wd`. -/
def decText (w n : ℕ) : List u8 := (padded w (digits 10 20 n)).map digitChar

/-- `%lld`. -/
def longText (n : ut64) : List u8 :=
  if n < 2 ^ 63 then decText 0 n.toNat else 45 :: decText 0 (2 ^ 64 - n.toNat)

/-- `%d`. -/
def intText (n : UInt32) : List u8 :=
  if n < 2 ^ 31 then decText 0 n.toNat else 45 :: decText 0 (2 ^ 32 - n.toNat)

/-- `%0wllx`. -/
def hexText (w : ℕ) (n : ut64) : List u8 := (padded w (digits 16 16 n.toNat)).map digitChar

/-- The value of a hexadecimal digit, of either case. -/
def hexDigit (c : u8) : Option ℕ :=
  if 48 ≤ c ∧ c ≤ 57 then some (c.toNat - 48)
  else if 65 ≤ c ∧ c ≤ 70 then some (c.toNat - 55)
  else if 97 ≤ c ∧ c ≤ 102 then some (c.toNat - 87)
  else none

/-- `%llx` of one to sixteen digits and nothing else. -/
def hexValue (text : List u8) : Option ut64 :=
  if text = [] ∨ 16 < text.length then none
  else (text.mapM hexDigit).map fun ds => UInt64.ofNat (value 16 ds)

variable {n : ut64} {d w : ℕ} {ds : List ℕ}

theorem cstr_front {l rest : List u8} (hl : 0 ∉ l) : cstr (l ++ 0 :: rest) = l :=
  takeWhile_ne_cons hl

/-- The character at the end of what is in front of it. -/
theorem getD_front (l rest : List u8) (c : u8) : (l ++ c :: rest).getD l.length 0 = c := by
  rw [List.getD_eq_getElem?_getD, List.getElem?_append_right le_rfl, Nat.sub_self]
  rfl

theorem set_front {l rest : List u8} (c d : u8) :
    (l ++ c :: rest).set l.length d = l ++ d :: rest := by
  rw [List.set_append_right _ _ le_rfl, Nat.sub_self, List.set_cons_zero]

theorem hexDigit_lt {c : u8} {d : ℕ} (h : hexDigit c = some d) : d < 16 := by
  unfold hexDigit at h
  simp only [UInt8.le_iff_toNat_le] at h
  split_ifs at h with hdigit hupper hlower
  · obtain rfl := Option.some.inj h
    have : (57 : u8).toNat = 57 := rfl
    omega
  · obtain rfl := Option.some.inj h
    have : (70 : u8).toNat = 70 := rfl
    omega
  · obtain rfl := Option.some.inj h
    have : (102 : u8).toNat = 102 := rfl
    omega

theorem hexDigit_digitChar (hd : d < 16) : hexDigit (digitChar d) = some d := by
  have h : ∀ d : Fin 16, hexDigit (digitChar d) = some d.val := by decide
  exact h ⟨d, hd⟩

theorem mapM_hexDigit (hds : ∀ d ∈ ds, d < 16) : (ds.map digitChar).mapM hexDigit = some ds := by
  induction ds with
  | nil => rfl
  | cons d ds ih =>
    rw [List.map_cons, List.mapM_cons, hexDigit_digitChar (hds d List.mem_cons_self),
      ih fun e he => hds e (List.mem_cons_of_mem _ he)]
    rfl

/-- **A number printed in hexadecimal is read back.** -/
theorem hexValue_hexText (hw : 0 < w) (hle : w ≤ 16) : hexValue (hexText w n) = some n := by
  have hds : ∀ d ∈ padded w (digits 16 16 n.toNat), d < 16 := fun d hd =>
    lt_of_mem_padded (by decide) hd
  have hne : hexText w n ≠ [] := by
    unfold hexText
    rw [Ne, List.map_eq_nil_iff]
    exact padded_ne_nil hw
  have hlen : ¬16 < (hexText w n).length := by
    unfold hexText
    rw [List.length_map, length_padded, not_lt]
    exact max_le hle length_digits_le
  have hn : n.toNat < 16 ^ 16 := n.toNat_lt
  unfold hexValue
  rw [if_neg (not_or.mpr ⟨hne, hlen⟩)]
  unfold hexText
  rw [mapM_hexDigit hds, Option.map_some, value_padded hn, UInt64.ofNat_toNat]

/-- A byte is two digits. -/
theorem hexText_two (b : u8) :
    hexText 2 b.toUInt64 = [digitChar (b.toNat / 16), digitChar (b.toNat % 16)] := by
  have hlt := b.toNat_lt
  unfold hexText
  rw [UInt8.toNat_toUInt64, padded_digits_two (by omega)]
  rfl

/-- The characters of a hexadecimal number. -/
theorem of_mem_hexText {c : u8} (hc : c ∈ hexText w n) : 48 ≤ c ∧ c ≤ 57 ∨ 97 ≤ c ∧ c ≤ 102 := by
  obtain ⟨d, hd, rfl⟩ := List.mem_map.mp hc
  have h : ∀ d : Fin 16, 48 ≤ digitChar d ∧ digitChar d ≤ 57 ∨
      97 ≤ digitChar d ∧ digitChar d ≤ 102 := by decide
  exact h ⟨d, lt_of_mem_padded (by decide) hd⟩

/-- The characters of a decimal number. -/
theorem of_mem_decText {c : u8} {k : ℕ} (hc : c ∈ decText w k) : 48 ≤ c ∧ c ≤ 57 := by
  obtain ⟨d, hd, rfl⟩ := List.mem_map.mp hc
  have h : ∀ d : Fin 10, 48 ≤ digitChar d ∧ digitChar d ≤ 57 := by decide
  exact h ⟨d, lt_of_mem_padded (by decide) hd⟩

end Radare
