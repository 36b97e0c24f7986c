import Radare.Data.Sums
import Radare.Flags.Model
/-!
# Numbers as they are written

The numbers in an expression are decimal, or hexadecimal behind `0x`, of any
length. `sscanf` reads a decimal one as a `long long` and a hexadecimal one as
an `unsigned long long`, and what is too large for that as the greatest there is.
`get_offset` asks for the number as an option first, and passes over blanks
around it (`getOffset_within`).
-/

namespace Radare

open Common

/-- A number in decimal, or in hexadecimal behind `0x`. -/
structure Literal where
  hex : Bool
  digits : List u8
  ne_nil : digits ≠ []
  digit : ∀ c ∈ digits, (hexDigit c).any (· < if hex then 16 else 10) = true

namespace Literal

/-- How it is written. -/
def text (a : Literal) : List u8 := if a.hex then 48 :: 120 :: a.digits else a.digits

/-- The number. -/
def val (a : Literal) : ℕ := value (if a.hex then 16 else 10) (a.digits.filterMap hexDigit)

/-- What it has to be smaller than. -/
def bound (a : Literal) : ℕ := if a.hex then 2 ^ 64 else 2 ^ 63

/-- What `sscanf` makes of it. -/
def read (a : Literal) : ℕ := min a.val (a.bound - 1)

/-- It is written with blanks around. -/
def within (a : Literal) (b b' : ℕ) : List u8 :=
  List.replicate b 32 ++ a.text ++ List.replicate b' 32

end Literal

variable {w rest : List u8} {c : u8} {a : Literal} {b b' : ℕ}

/-! ## `sscanf` -/

/-- **Decimal digits are read** up to what is behind, and up to the greatest
`long long`. -/
theorem scanDec_digits_append (hne : w ≠ []) (hw : ∀ c ∈ w, (hexDigit c).any (· < 10) = true)
    (hrest : EndsNumber rest) :
    Utils.scanDec (w ++ rest) =
      some (UInt64.ofNat (min (value 10 (w.filterMap hexDigit)) (2 ^ 63 - 1))) := by
  obtain ⟨hsign, hds⟩ := scanSign_digits hne hw rest
  generalize hn : value 10 (w.filterMap hexDigit) = n
  have hclamp : max (-2 ^ 63) (min (n : ℤ) (2 ^ 63 - 1)) = (min n (2 ^ 63 - 1) : ℕ) := by omega
  have hmod : ((min n (2 ^ 63 - 1) : ℕ) : ℤ) % 2 ^ 64 = (min n (2 ^ 63 - 1) : ℕ) :=
    Int.emod_eq_of_lt (by omega) (by omega)
  unfold Utils.scanDec
  rw [hsign]
  dsimp only
  rw [scanDigits_append hw fun c hc => (hrest c hc).1, if_neg hds, hn, if_neg Bool.false_ne_true,
    hclamp, UInt64.ofInt, hmod, Int.toNat_natCast]

/-! ## The texts -/

namespace Literal

/-- The characters of a number. -/
theorem of_mem_text (hc : c ∈ a.text) : (hexDigit c).isSome ∨ c = 120 := by
  unfold text at hc
  split_ifs at hc with hhex
  · rcases List.mem_cons.mp hc with rfl | hc
    · exact Or.inl (by decide)
    · rcases List.mem_cons.mp hc with rfl | hc
      · exact Or.inr rfl
      · exact Or.inl (Option.isSome_of_any (a.digit c hc))
  · exact Or.inl (Option.isSome_of_any (a.digit c hc))

theorem not_mem_text (hdigit : hexDigit c = none) (hx : c ≠ 120) : c ∉ a.text := by
  intro hc
  rcases of_mem_text hc with h | h
  · rw [hdigit] at h
    cases h
  · exact hx h

theorem not_operator (hc : c ∈ a.text) : c ∉ operators := by
  have hops : ∀ c ∈ operators, hexDigit c = none ∧ c ≠ 120 := by decide +kernel
  exact fun hop => not_mem_text (hops c hop).1 (hops c hop).2 hc

theorem text_ne_nil (a : Literal) : a.text ≠ [] := by
  unfold text
  split_ifs
  · exact List.cons_ne_nil _ _
  · exact a.ne_nil

/-- A decimal number has decimal digits alone. -/
theorem decimal (hhex : a.hex = false) (hc : c ∈ a.text) : 48 ≤ c ∧ c ≤ 57 := by
  unfold text at hc
  rw [hhex, if_neg Bool.false_ne_true] at hc
  have hdigit := a.digit c hc
  rw [hhex, if_neg Bool.false_ne_true] at hdigit
  unfold hexDigit at hdigit
  split_ifs at hdigit with hten hupper hlower
  · exact hten
  · have h65 := UInt8.le_iff_toNat_le.mp hupper.1
    have hlt := of_decide_eq_true hdigit
    have hc65 : (65 : u8).toNat = 65 := rfl
    omega
  · have h97 := UInt8.le_iff_toNat_le.mp hlower.1
    have hlt := of_decide_eq_true hdigit
    have hc97 : (97 : u8).toNat = 97 := rfl
    omega
  · exact absurd hdigit Bool.false_ne_true

/-- What tells the two apart. -/
theorem take_text_append (a : Literal) (hrest : EndsNumber rest) :
    decide ((a.text ++ rest).take 2 = [48, 120]) = a.hex := by
  cases hhex : a.hex with
  | true =>
    refine decide_eq_true ?_
    unfold text
    rw [hhex, if_pos rfl]
    rfl
  | false =>
    refine decide_eq_false fun h => ?_
    have hsecond : (a.text ++ rest)[1]? = some 120 := by
      rw [← List.getElem?_take_of_lt (by omega : 1 < 2), h]
      rfl
    rcases Nat.lt_or_ge 1 a.text.length with hlong | hshort
    · rw [List.getElem?_append_left hlong] at hsecond
      exact absurd (decimal hhex (List.mem_of_getElem? hsecond)) (by decide)
    · have hone : a.text.length = 1 :=
        le_antisymm hshort (List.length_pos_iff.mpr a.text_ne_nil)
      rw [List.getElem?_append_right hshort, hone, Nat.sub_self, ← List.head?_eq_getElem?] at hsecond
      exact (hrest 120 hsecond).2.1 rfl

theorem take_text (a : Literal) : decide (a.text.take 2 = [48, 120]) = a.hex := by
  have happend := a.take_text_append endsNumber_nil
  rwa [List.append_nil] at happend

/-- **What `sscanf` makes of it**, up to what is behind. -/
theorem scan_text_append (a : Literal) (hrest : EndsNumber rest) :
    (if decide ((a.text ++ rest).take 2 = [48, 120]) then
        Utils.scanBase 16 ((a.text ++ rest).drop 2)
      else Utils.scanDec (a.text ++ rest)) = some (UInt64.ofNat a.read) := by
  have hdigits := a.digit
  rw [a.take_text_append hrest]
  unfold text read val bound
  cases hhex : a.hex with
  | true =>
    rw [hhex] at hdigits
    exact scanBase_digits_append a.ne_nil hdigits hrest
  | false =>
    rw [hhex] at hdigits
    exact scanDec_digits_append a.ne_nil hdigits hrest

theorem scan_text (a : Literal) :
    (if decide (a.text.take 2 = [48, 120]) then Utils.scanBase 16 (a.text.drop 2)
      else Utils.scanDec a.text) = some (UInt64.ofNat a.read) := by
  have happend := a.scan_text_append endsNumber_nil
  rwa [List.append_nil] at happend

/-! ## Blanks around -/

theorem dropWhile_within (a : Literal) (b b' : ℕ) :
    (a.within b b').dropWhile (· = 32) = a.text ++ List.replicate b' 32 := by
  obtain ⟨c, t, hct⟩ := List.exists_cons_of_ne_nil a.text_ne_nil
  have hc : c ≠ 32 := by
    rintro rfl
    exact not_mem_text (by decide) (by decide) (a := a) (hct ▸ List.mem_cons_self)
  have hblanks : ∀ d ∈ List.replicate b (32 : u8), decide (d = 32) = true := fun d hd =>
    decide_eq_true (List.eq_of_mem_replicate hd)
  unfold within
  rw [List.append_assoc, List.dropWhile_append_of_pos hblanks, hct, List.cons_append]
  exact List.dropWhile_cons_of_neg (by simpa using hc)

theorem takeWhile_within (a : Literal) (b' : ℕ) :
    (a.text ++ List.replicate b' 32).takeWhile (· ≠ 32) = a.text :=
  takeWhile_blanks (not_mem_text (by decide) (by decide))

theorem isNumber_within (a : Literal) (b b' : ℕ) : IsNumber (a.within b b') := by
  have hbracket : 91 ∉ a.text ++ List.replicate b' 32 := by
    intro h
    rcases List.mem_append.mp h with h | h
    · exact not_mem_text (by decide) (by decide) h
    · exact absurd (List.eq_of_mem_replicate h) (by decide)
  unfold IsNumber
  dsimp only
  rw [dropWhile_within, takeWhile_within]
  refine ⟨hbracket, ?_⟩
  cases hhex : a.hex with
  | true => exact Or.inl (of_decide_eq_true ((take_text a).trans hhex))
  | false => exact Or.inr ⟨a.text_ne_nil, fun c hc => decimal hhex hc⟩

/-- **A number, in `get_offset`**: its option, or what `sscanf` makes of it. -/
theorem getOffset_within (env : Utils.MathEnv) (a : Literal) (b b' : ℕ)
    (hdigit : ∀ c name, 48 ≤ c ∧ c ≤ 57 → env.flagGet (c :: name) = none) :
    Utils.getOffset env (a.within b b') =
      Utils.configGetI env (a.text ++ List.replicate b' 32) >>= fun ret =>
        pure (if ret.toUInt32 ≠ 0 then ret else UInt64.ofNat a.read) := by
  have hnumber := getOffset_number (isNumber_within a b b') hdigit
  dsimp only at hnumber
  rw [dropWhile_within, takeWhile_within, scan_text] at hnumber
  exact hnumber

end Literal

/-! ## Flags -/

/-- `get_offset` of the program, with a table of flags. -/
def Utils.MathEnv.withFlags (env : Utils.MathEnv) (flags : List FlagT) : MathEnv :=
  { env with flagGet := fun name => (Radare.flagGet flags name).map FlagT.offset }

/-- No flag that is found starts with a digit. -/
theorem withFlags_digit (env : Utils.MathEnv) (flags : List FlagT) (c : u8) (name : List u8)
    (hc : 48 ≤ c ∧ c ≤ 57) : (env.withFlags flags).flagGet (c :: name) = none := by
  have hnone : flagGet flags (c :: name) = none := if_pos (decide_eq_true hc)
  exact congrArg (Option.map FlagT.offset) hnone

/-! ## Options -/

/-- What the configuration says an option is; `math` is `get_math`. -/
def optionOf (env : Utils.MathEnv) (math : List u8 → ut64) (name : List u8) : ut64 :=
  match configNodeGet env.behindName env.config name with
  | some node => if node.iValue ≠ 0 then node.iValue else math node.value
  | none => 0

/-- What a number asks for, with `get_math` for the values of options. -/
def askOf (math : List u8 → ut64) : Utils.Ask → State → Option (ut64 × State)
  | .math text, s => some (math text, s)
  | .pointer addr size big, s => some (Utils.pointerAt s addr size big)
  | .seek, s => some (s.config.seek, s)

/-- `get_offset`, with `get_math` for the values of options. -/
def offsetOf (env : Utils.MathEnv) (math : List u8 → ut64) (text : List u8) : ut64 :=
  (((Utils.getOffset env text).inside.run (askOf math) env.disk).map Prod.fst).getD 0

theorem run_configGetI (env : Utils.MathEnv) (math : List u8 → ut64) (name : List u8) (s : State) :
    (Utils.configGetI env name).inside.run (askOf math) s = some (optionOf env math name, s) := by
  unfold Utils.configGetI optionOf
  cases configNodeGet env.behindName env.config name with
  | none => rfl
  | some node =>
    dsimp only
    split_ifs <;> rfl

end Radare
