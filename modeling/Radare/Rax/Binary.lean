import Radare.Rax.Model
/-!
# Binary numbers, in two programs

`rax` has the same loop over binary digits as `get_offset`, and prints what comes
of it. But a number that starts with 0 is octal to it, whatever is at its end: so
the two agree on a number that starts with 1, and on 0 and 1.

Behind `Bx` it prints a number in binary, in buffers with four characters for each
hexadecimal digit. There the `b` is no part of the text, but the NUL is: a number
whose first digit is 8 or more has no room for it.
-/

namespace Radare

open Common

/-- A 32-bit number in hexadecimal digits. -/
structure HexWord where
  digits : List u8
  ne_nil : digits ≠ []
  digit : ∀ c ∈ digits, (hexDigit c).any (· < 16) = true
  lt : value 16 (digits.filterMap hexDigit) < 2 ^ 32

/-- The number. -/
def HexWord.val (w : HexWord) : ℕ := value 16 (w.digits.filterMap hexDigit)

/-- What `rax` prints for a binary number of at most 32 digits. -/
def BitString.raxVal (s : BitString) : ℕ :=
  if s.digits.head? = some true then
    if s.digits.length = 32 then s.val + (2 ^ 64 - 2 ^ 32) else s.val
  else min (value 8 (bitDigits s.digits)) (2 ^ 64 - 1) % 2 ^ 32

/-- `rax` prints the number that `get_offset` makes of the text. -/
def BitString.Agrees (rx : RaxEnv) (flags : List FlagT) (math : List u8 → ut64) (s : BitString) :
    Prop :=
  rax rx {} s.text = .ok ({}, hexLine (offsetOf (rx.math.withFlags flags) math s.text))

/-- `rax` prints a number in binary, and reads the number back. -/
def HexWord.RoundTrips (rx : RaxEnv) (w : HexWord) : Prop :=
  ∃ l : List Bool,
    rax rx {} ([66, 120] ++ w.digits) = .ok ({}, bitChars l ++ [98, 10]) ∧
      rax rx {} (bitChars l ++ [98]) = .ok ({}, hexLine (UInt64.ofNat w.val))

variable {rx : RaxEnv} {s : BitString} {w : HexWord} {l : List Bool} {b : Bool} {a : UInt32}
variable {n m k size fuel : ℕ} {text : List u8} {x y : ut64}

/-! ## Binary numbers to `rax` -/

theorem hexLine_inj (h : hexLine x = hexLine y) : x = y := by
  have htext : hexText 1 x = hexText 1 y := List.append_cancel_left (List.append_cancel_right h)
  have hx : hexValue (hexText 1 x) = some x := hexValue_hexText (by decide) (by decide)
  have hy : hexValue (hexText 1 y) = some y := hexValue_hexText (by decide) (by decide)
  rw [htext, hy] at hx
  exact (Option.some.inj hx).symm

/-- An argument that is none of the switches. -/
theorem rax_number {arg : List u8} (hquit : arg.head? ≠ some 113) (hsign : arg.head? ≠ some 45) :
    rax rx {} arg = match raxNumber rx {} false arg with
      | some out => .ok ({}, out)
      | none => .error .outside := by
  have hne : ∀ d : List u8, arg ≠ 45 :: d := by
    rintro d rfl
    exact hsign rfl
  unfold rax
  rw [if_neg hquit, if_neg (hne _), if_neg (hne _), if_neg (hne _)]
  dsimp only
  rw [decide_eq_false hsign]
  rfl

/-- **A binary number** is one if it starts with 1, and else is octal. -/
theorem rax_bits (rx : RaxEnv) (b : Bool) (l : List Bool) :
    rax rx {} (bitChars (b :: l) ++ [98]) =
      .ok ({}, hexLine (if b then readBits rx.math (b :: l)
        else (scanUnsigned 8 (bitChars (b :: l) ++ [98])).toUInt64)) := by
  have hlast : (bitChars (b :: l) ++ [98]).getLast? = some 98 := List.getLast?_concat
  have hinit : (bitChars (b :: l) ++ [98]).dropLast = bitChars (b :: l) := List.dropLast_concat
  have hsecond : ∀ c ∈ bitChars (b :: l) ++ [98], c ≠ 120 := by
    rintro c hc rfl
    rcases of_mem_bits hc with h | h | h <;> cases h
  have htake : ∀ c : u8, (bitChars (b :: l) ++ [98]).take 2 ≠ [c, 120] := by
    intro c h
    have hmem : (120 : u8) ∈ (bitChars (b :: l) ++ [98]).take 2 := by
      rw [h]
      exact List.mem_cons_of_mem _ (List.mem_singleton_self _)
    exact hsecond 120 (List.mem_of_mem_take hmem) rfl
  have hhead : (bitChars (b :: l) ++ [98]).head? = some (if b then 49 else 48) := rfl
  have hfirst : ∀ c : u8, c ≠ 48 → c ≠ 49 → (bitChars (b :: l) ++ [98]).head? ≠ some c := by
    intro c h48 h49 h
    rw [hhead] at h
    cases b
    · exact h48 (Option.some.inj h).symm
    · exact h49 (Option.some.inj h).symm
  have hhelp : ¬((bitChars (b :: l) ++ [98]).head? = some 63 ∨
      (bitChars (b :: l) ++ [98]).head? = some 104) :=
    not_or.mpr ⟨hfirst 63 (by decide) (by decide), hfirst 104 (by decide) (by decide)⟩
  have hnumber : raxNumber rx {} false (bitChars (b :: l) ++ [98]) =
      some (hexLine (if b then readBits rx.math (b :: l)
        else (scanUnsigned 8 (bitChars (b :: l) ++ [98])).toUInt64)) := by
    unfold raxNumber
    rw [if_neg hhelp, if_neg (htake _), if_neg (htake _), if_neg (htake _), if_neg (htake _), hlast]
    dsimp only
    cases b with
    | true =>
      have hnot : ¬((bitChars (true :: l) ++ [98]).head? = some 48 ∧
          (bitChars (true :: l) ++ [98])[1]? ≠ some 120 ∨ (98 : u8) = 111) := by
        rintro (⟨h, -⟩ | h)
        · cases h
        · cases h
      rw [if_neg hnot, if_pos rfl, hinit]
      rfl
    | false =>
      have hoctal : (bitChars (false :: l) ++ [98]).head? = some 48 ∧
          (bitChars (false :: l) ++ [98])[1]? ≠ some 120 :=
        ⟨rfl, fun h => hsecond 120 (List.mem_of_getElem? h) rfl⟩
      rw [if_pos (Or.inl hoctal)]
      rfl
  rw [rax_number (hfirst 113 (by decide) (by decide)) (hfirst 45 (by decide) (by decide)), hnumber]

/-! ## Octal digits -/

theorem filterMap_bitChars (l : List Bool) : (bitChars l).filterMap hexDigit = bitDigits l := by
  induction l with
  | nil => rfl
  | cons b l ih =>
    have hcons : (bitChars (b :: l)).filterMap hexDigit =
        b.toNat :: (bitChars l).filterMap hexDigit := by
      cases b <;> rfl
    rw [hcons, ih]
    rfl

/-- What `%o` makes of binary digits. -/
theorem scanUnsigned_bits (b : Bool) (l : List Bool) :
    scanUnsigned 8 (bitChars (b :: l) ++ [98]) =
      (UInt64.ofNat (min (value 8 (bitDigits (b :: l))) (2 ^ 64 - 1))).toUInt32 := by
  have hdigits : Utils.scanDigits 8 (bitChars (b :: l) ++ [98]) = bitDigits (b :: l) := by
    have hchar : ∀ c ∈ bitChars (b :: l), (hexDigit c).any (· < 8) = true := by
      intro c hc
      obtain ⟨d, -, rfl⟩ := List.mem_map.mp hc
      cases d <;> decide
    unfold Utils.scanDigits
    rw [List.takeWhile_append_of_pos hchar, List.takeWhile_cons_of_neg (by decide), List.append_nil,
      filterMap_bitChars]
  have hsign : Utils.scanSign (Utils.skipSpace (bitChars (b :: l) ++ [98])) =
      (false, bitChars (b :: l) ++ [98]) :=
    scanSign_digit (by cases b <;> decide)
  have hnox : Utils.scanPrefix 8 (bitChars (b :: l) ++ [98]) = false :=
    decide_eq_false fun h => absurd h.1 (by decide)
  have hne : bitDigits (b :: l) ≠ [] := List.cons_ne_nil _ _
  unfold scanUnsigned Utils.scanBase
  rw [hsign]
  dsimp only
  rw [hnox, if_neg Bool.false_ne_true, hdigits, if_neg hne]
  generalize value 8 (bitDigits (b :: l)) = n
  by_cases hbig : 2 ^ 64 ≤ n
  · rw [if_pos hbig, Nat.min_eq_right (by omega)]
    rfl
  · rw [if_neg hbig, if_neg Bool.false_ne_true, Nat.min_eq_left (by omega)]
    rfl

/-- **Binary digits read as octal ones** are the same number if it is 0 or 1. -/
theorem octal_eq_iff (hlow : ∀ k, 31 ≤ k → bitAt l k = false) :
    min (value 8 (bitDigits l)) (2 ^ 64 - 1) % 2 ^ 32 = value 2 (bitDigits l) ↔
      value 2 (bitDigits l) ≤ 1 := by
  have hoctal : ∀ k, (value 8 (bitDigits l)).testBit k = (decide (3 ∣ k) && bitAt l (k / 3)) :=
    fun k => testBit_value (m := 3) (by decide)
  have hlt : value 2 (bitDigits l) < 2 ^ 31 := by
    refine Nat.lt_pow_two_of_testBit _ fun k hk => ?_
    rw [testBit_value_two, hlow k hk]
  constructor
  · intro h
    have hfits : value 8 (bitDigits l) < 2 ^ 64 := by
      by_contra hbig
      rw [Nat.min_eq_right (by omega)] at h
      omega
    rw [Nat.min_eq_left (by omega)] at h
    -- each digit is one that is three times as near to the end
    have hdigit : ∀ k, k < 32 → bitAt l k = (decide (3 ∣ k) && bitAt l (k / 3)) := by
      intro k hk
      rw [← testBit_value_two, ← h, Nat.testBit_mod_two_pow, decide_eq_true hk, Bool.true_and,
        hoctal]
    refine value_two_le_one_iff.mpr fun k => ?_
    induction k using Nat.strong_induction_on with
    | _ k ih =>
      intro hpos
      by_cases hk : k < 32
      · rw [hdigit k hk]
        by_cases hdvd : 3 ∣ k
        · rw [ih (k / 3) (by omega) (by omega), Bool.and_false]
        · rw [decide_eq_false hdvd, Bool.false_and]
      · exact hlow k (by omega)
  · intro hone
    have hzero := value_two_le_one_iff.mp hone
    have hsame : value 8 (bitDigits l) = value 2 (bitDigits l) := by
      refine Nat.eq_of_testBit_eq fun k => ?_
      rw [hoctal, testBit_value_two]
      by_cases hk : k = 0
      · rw [hk]
        rfl
      · rw [hzero k (by omega)]
        by_cases hdvd : 3 ∣ k
        · rw [hzero (k / 3) (by omega), Bool.and_false]
        · rw [decide_eq_false hdvd, Bool.false_and]
    rw [hsame]
    omega

/-! ## The number printed -/

theorem toUInt64_toUInt32 (hn : n < 2 ^ 64) :
    (UInt64.ofNat n).toUInt32.toUInt64 = UInt64.ofNat (n % 2 ^ 32) := by
  have hmod : n % 2 ^ 32 < 2 ^ 64 := lt_of_lt_of_le (Nat.mod_lt _ (by decide)) (by decide)
  rw [← UInt64.toNat_inj, UInt32.toNat_toUInt64, UInt64.toNat_toUInt32, UInt64.toNat_ofNat',
    UInt64.toNat_ofNat', Nat.mod_eq_of_lt hn, Nat.mod_eq_of_lt hmod]

/-- The digits of a number whose first one is 0 are all below bit 31. -/
theorem bitAt_of_head (h : (b :: l).length ≤ 32) (hb : (b :: l).length < 32 ∨ b = false) :
    ∀ k, 31 ≤ k → bitAt (b :: l) k = false := by
  intro k hk
  by_cases hin : (b :: l).length ≤ k
  · exact bitAt_of_length_le hin
  · rw [List.length_cons] at h hb hin
    have hlen : k = l.length := by omega
    rw [hlen, bitAt_head]
    exact hb.resolve_left (by omega)

/-- A number of 32 digits is extended by its sign. -/
theorem readBits_sign (hshl : rx.math.ShiftsInt) (hlen : l.length = 31) :
    readBits rx.math (true :: l) =
      UInt64.ofNat (value 2 (bitDigits (true :: l)) + (2 ^ 64 - 2 ^ 32)) := by
  have hval : value 2 (bitDigits (true :: l)) < 2 ^ 32 :=
    lt_of_lt_of_eq value_two_lt (congrArg (2 ^ ·) (congrArg Nat.succ hlen))
  have hsum : value 2 (bitDigits (true :: l)) + (2 ^ 64 - 2 ^ 32) =
      2 ^ 32 * (2 ^ 32 - 1) + value 2 (bitDigits (true :: l)) := by omega
  have hsign : bitAt (true :: l) 31 = true := by
    rw [← hlen, bitAt_head]
  rw [eq_ofNat_iff (by omega), hsum]
  intro k hk
  rw [Nat.testBit_two_pow_mul_add _ hval, Bool.eq_iff_iff, testBit_readBits hshl _ hk]
  by_cases hlow : k < 32
  · rw [if_pos hlow, testBit_value_two]
    constructor
    · rintro ⟨i, hi, hcase⟩
      by_cases hmod : i % 32 = 31
      · rw [if_pos hmod] at hcase
        have hk31 : k = 31 := by omega
        rwa [hk31]
      · have hlt : i < 32 := by
          by_contra hle
          rw [bitAt_of_length_le (by rw [List.length_cons]; omega)] at hi
          cases hi
        rw [if_neg hmod] at hcase
        have hki : k = i := by omega
        rwa [hki]
    · intro hset
      refine ⟨k, hset, ?_⟩
      split_ifs <;> omega
  · rw [if_neg hlow, Nat.testBit_two_pow_sub_one]
    refine iff_of_true ⟨31, hsign, ?_⟩ (decide_eq_true (by omega))
    rw [if_pos rfl]
    omega

/-- **What `rax` prints** for a binary number. -/
theorem rax_text (hshl : rx.math.ShiftsInt) (hlen : s.digits.length ≤ 32) :
    rax rx {} s.text = .ok ({}, hexLine (UInt64.ofNat s.raxVal)) := by
  obtain ⟨digits, hne, hle⟩ := s
  obtain ⟨b, l, rfl⟩ := List.exists_cons_of_ne_nil hne
  have hrax := rax_bits rx b l
  refine hrax.trans ?_
  unfold BitString.raxVal
  cases b with
  | true =>
    have hprinted : readBits rx.math (true :: l) = UInt64.ofNat
        (if (true :: l).length = 32 then value 2 (bitDigits (true :: l)) + (2 ^ 64 - 2 ^ 32)
          else value 2 (bitDigits (true :: l))) := by
      by_cases hfull : (true :: l).length = 32
      · rw [if_pos hfull]
        exact readBits_sign hshl (Nat.succ.inj hfull)
      · have hshort : (true :: l).length < 32 := lt_of_le_of_ne hlen hfull
        rw [if_neg hfull]
        exact (readBits_eq_iff hshl ⟨true :: l, hne, hle⟩).mpr
          (Or.inl (bitAt_of_head hlen (Or.inl hshort)))
    exact congrArg (fun n => Except.ok (({} : RaxState), hexLine n)) hprinted
  | false =>
    have hsmall : min (value 8 (bitDigits (false :: l))) (2 ^ 64 - 1) < 2 ^ 64 :=
      lt_of_le_of_lt (Nat.min_le_right _ _) (by decide)
    have hprinted : (scanUnsigned 8 (bitChars (false :: l) ++ [98])).toUInt64 = UInt64.ofNat
        (min (value 8 (bitDigits (false :: l))) (2 ^ 64 - 1) % 2 ^ 32) := by
      rw [scanUnsigned_bits, toUInt64_toUInt32 hsmall]
    exact congrArg (fun n => Except.ok (({} : RaxState), hexLine n)) hprinted

/-- **When the two agree** on a binary number. -/
theorem agrees_iff (hshl : rx.math.ShiftsInt) (flags : List FlagT) (math : List u8 → ut64)
    (hlen : s.digits.length ≤ 32) :
    s.Agrees rx flags math ↔
      if (optionOf rx.math math s.text).toUInt32 ≠ 0 then
        optionOf rx.math math s.text = UInt64.ofNat s.raxVal
      else s.digits.head? = some true ∨ s.val ≤ 1 := by
  have hagrees : s.Agrees rx flags math ↔
      UInt64.ofNat s.raxVal = offsetOf (rx.math.withFlags flags) math s.text := by
    unfold BitString.Agrees
    rw [rax_text hshl hlen]
    constructor
    · exact fun h => hexLine_inj (Prod.mk.inj (Except.ok.inj h)).2
    · exact fun h => by rw [h]
  rw [hagrees, offsetOf_bits]
  by_cases hoption : (optionOf rx.math math s.text).toUInt32 ≠ 0
  · rw [if_pos hoption, if_pos hoption, eq_comm]
  · rw [if_neg hoption, if_neg hoption]
    have htext := rax_text hshl hlen
    obtain ⟨digits, hne, hle⟩ := s
    obtain ⟨b, l, rfl⟩ := List.exists_cons_of_ne_nil hne
    cases b with
    | true =>
      have hbits := rax_bits rx true l
      refine iff_of_true ?_ (Or.inl rfl)
      exact hexLine_inj (Prod.mk.inj (Except.ok.inj (htext.symm.trans hbits))).2
    | false =>
      have hlow : ∀ k, 31 ≤ k → bitAt (false :: l) k = false := bitAt_of_head hlen (Or.inr rfl)
      have hread : readBits rx.math (false :: l) =
          UInt64.ofNat (value 2 (bitDigits (false :: l))) :=
        (readBits_eq_iff hshl ⟨false :: l, hne, hle⟩).mpr (Or.inl hlow)
      have hmod : min (value 8 (bitDigits (false :: l))) (2 ^ 64 - 1) % 2 ^ 32 < 2 ^ 64 :=
        lt_of_lt_of_le (Nat.mod_lt _ (by decide)) (by decide)
      have hval : value 2 (bitDigits (false :: l)) < 2 ^ 64 :=
        BitString.val_lt ⟨false :: l, hne, hle⟩
      have hwords : UInt64.ofNat (BitString.raxVal ⟨false :: l, hne, hle⟩) =
          UInt64.ofNat (value 2 (bitDigits (false :: l))) ↔
            min (value 8 (bitDigits (false :: l))) (2 ^ 64 - 1) % 2 ^ 32 =
              value 2 (bitDigits (false :: l)) := by
        rw [← UInt64.toNat_inj, UInt64.toNat_ofNat', UInt64.toNat_ofNat', Nat.mod_eq_of_lt hval]
        exact iff_of_eq (congrArg (· = _) (Nat.mod_eq_of_lt hmod))
      rw [hread, hwords, octal_eq_iff hlow]
      exact (or_iff_right fun h => by cases h).symm

/-! ## Numbers printed in binary -/

/-- Bits as they are printed. -/
def printedBits (k n : ℕ) : List Bool := (digits 2 k n).map fun d => decide (d = 1)

theorem bitDigits_printedBits : bitDigits (printedBits k n) = digits 2 k n := by
  have hback : ∀ d ∈ digits 2 k n, (decide (d = 1)).toNat = d := by
    intro d hd
    have hlt := lt_of_mem_digits (by decide) hd
    by_cases hone : d = 1
    · rw [hone]
      rfl
    · rw [decide_eq_false hone]
      have hzero : d = 0 := by omega
      rw [hzero]
      rfl
  unfold bitDigits printedBits
  rw [List.map_map]
  exact (List.map_congr_left hback).trans (List.map_id _)

/-- The first digit of a number is not 0. -/
theorem head_printedBits (hn : n ≠ 0) (hlt : n < 2 ^ k) : (printedBits k n).head? = some true := by
  induction k generalizing n with
  | zero => omega
  | succ k ih =>
    unfold printedBits digits
    split_ifs with hsmall
    · have hone : n = 1 := by omega
      rw [hone]
      rfl
    · have hhalf := ih (n := n / 2) (by omega) (by omega)
      have hne : printedBits k (n / 2) ≠ [] := by
        intro hnil
        rw [hnil] at hhalf
        cases hhalf
      unfold printedBits at hhalf hne
      rw [List.map_append, List.head?_append_of_ne_nil _ hne, hhalf]

/-- The last digit of a number that has more than one. -/
theorem printedBits_succ (hn : 2 ≤ n) :
    printedBits (k + 1) n = printedBits k (n / 2) ++ [decide (n % 2 = 1)] := by
  unfold printedBits
  rw [digits, if_neg (by omega), List.map_append]
  rfl

theorem bitChars_append_bit (l : List Bool) (text : List u8) :
    bitChars (l ++ [decide (n % 2 = 1)]) ++ text =
      bitChars l ++ (if n % 2 = 1 then 49 else 48) :: text := by
  rw [bitChars, List.map_append, List.append_assoc]
  by_cases hodd : n % 2 = 1
  · rw [decide_eq_true hodd, if_pos hodd]
    rfl
  · rw [decide_eq_false hodd, if_neg hodd]
    rfl

theorem and_one_ne_zero_iff (a : UInt32) : a &&& 1 ≠ 0 ↔ a.toNat % 2 = 1 := by
  have hand : (a &&& 1).toNat = a.toNat % 2 := by
    rw [UInt32.toNat_and]
    exact Nat.and_one_is_mod a.toNat
  rw [Ne, ← UInt32.toNat_inj, hand]
  have hzero : (0 : UInt32).toNat = 0 := rfl
  omega

theorem toNat_shiftRight_one (a : UInt32) : (a >>> 1).toNat = a.toNat / 2 := by
  rw [UInt32.toNat_shiftRight]
  exact Nat.shiftRight_eq_div_pow a.toNat 1

/-- **The loop that prints** has room for the digits of a number below a power of
two, and for no others. -/
theorem bxLoop_eq (ha : a ≠ 0) (hlt : a.toNat < 2 ^ k) (hfuel : k < fuel) (text : List u8) :
    bxLoop size fuel a text =
      if a.toNat < 2 ^ (size - 1 - text.length) then some (bitChars (printedBits k a.toNat) ++ text)
      else none := by
  have hpos : a.toNat ≠ 0 := fun h => ha (UInt32.toNat_inj.mp h)
  induction k generalizing a text fuel with
  | zero => omega
  | succ k ih =>
    obtain ⟨fuel, rfl⟩ : ∃ f, fuel = f + 1 := ⟨fuel - 1, by omega⟩
    have hbit : (if a &&& 1 ≠ 0 then 49 else 48 : u8) = if a.toNat % 2 = 1 then 49 else 48 :=
      if_congr (and_one_ne_zero_iff a) rfl rfl
    have hshift := toNat_shiftRight_one a
    unfold bxLoop
    rw [if_neg ha, hbit]
    dsimp only
    rw [List.length_cons]
    by_cases hroom : text.length + 1 + 1 ≤ size
    · rw [if_pos hroom]
      have hplace : size - 1 - text.length = size - 1 - (text.length + 1) + 1 := by omega
      by_cases hone : a.toNat = 1
      · have hnext : a >>> 1 = 0 := by
          rw [← UInt32.toNat_inj, hshift, hone]
          rfl
        obtain ⟨fuel, rfl⟩ : ∃ f, fuel = f + 1 := ⟨fuel - 1, by omega⟩
        have hfits : a.toNat < 2 ^ (size - 1 - text.length) := by
          rw [hone, hplace]
          exact Nat.one_lt_two_pow (Nat.succ_ne_zero _)
        have hdigits : printedBits (k + 1) a.toNat = [true] := by
          rw [hone]
          rfl
        rw [if_pos hfits, hdigits, hnext, hone]
        rfl
      · have hnext : a >>> 1 ≠ 0 := by
          intro h
          have hzero : a.toNat / 2 = 0 := by rw [← hshift, h]; rfl
          omega
        have hhalf : a.toNat / 2 < 2 ^ k := by omega
        have hcond : a.toNat / 2 < 2 ^ (size - 1 - (text.length + 1)) ↔
            a.toNat < 2 ^ (size - 1 - text.length) := by
          rw [hplace, Nat.pow_succ]
          omega
        rw [ih hnext (by rwa [hshift]) (by omega) _ (by rw [hshift]; omega), hshift,
          printedBits_succ (by omega), bitChars_append_bit, List.length_cons,
          if_congr hcond rfl rfl]
    · have hnone : size - 1 - text.length = 0 := by omega
      rw [if_neg hroom, hnone, if_neg (by omega)]

/-- What `%x` makes of a number. -/
theorem scanUnsigned_word (w : HexWord) : (scanUnsigned 16 w.digits).toNat = w.val := by
  have hlt : w.val < 2 ^ 32 := w.lt
  have hread : Utils.scanBase 16 w.digits = some (UInt64.ofNat (min w.val (2 ^ 64 - 1))) :=
    scanBase_digits w.ne_nil w.digit
  have hmin : min w.val (2 ^ 64 - 1) = w.val := Nat.min_eq_left (by omega)
  unfold scanUnsigned
  rw [hread, hmin, Option.getD_some, UInt64.toNat_toUInt32, UInt64.toNat_ofNat']
  omega

/-- **What is printed in binary**, if there is room for it. -/
theorem rax_word (rx : RaxEnv) (w : HexWord) :
    rax rx {} ([66, 120] ++ w.digits) =
      if w.val = 0 then .ok ({}, [48, 120, 48, 10])
      else if w.val < 2 ^ (4 * w.digits.length - 1) then
        .ok ({}, bitChars (printedBits 32 w.val) ++ [98, 10])
      else .error .outside := by
  have hhead : ∀ c : u8, c ≠ 66 → ([66, 120] ++ w.digits : List u8).head? ≠ some c := by
    intro c hc h
    exact hc (Option.some.inj h).symm
  have hnumber : raxNumber rx {} false ([66, 120] ++ w.digits) = raxBx ([66, 120] ++ w.digits) := by
    have hhelp : ¬(([66, 120] ++ w.digits : List u8).head? = some 63 ∨
        ([66, 120] ++ w.digits : List u8).head? = some 104) :=
      not_or.mpr ⟨hhead 63 (by decide), hhead 104 (by decide)⟩
    have htake : ([66, 120] ++ w.digits : List u8).take 2 = [66, 120] := rfl
    unfold raxNumber
    rw [if_neg hhelp, htake, if_pos rfl]
  have hsize : (([66, 120] ++ w.digits : List u8).length - 2) * 4 = 4 * w.digits.length := by
    rw [List.length_append, Nat.mul_comm]
    exact congrArg (4 * ·) (Nat.add_sub_cancel_left ..)
  have hpos : 4 * w.digits.length ≠ 0 := by
    have := List.length_pos_iff.mpr w.ne_nil
    omega
  have hdrop : ([66, 120] ++ w.digits : List u8).drop 2 = w.digits := rfl
  have hval := scanUnsigned_word w
  have hzero : scanUnsigned 16 w.digits = 0 ↔ w.val = 0 := by
    rw [← UInt32.toNat_inj, hval]
    rfl
  rw [rax_number (hhead 113 (by decide)) (hhead 45 (by decide)), hnumber]
  unfold raxBx
  rw [hsize, hdrop]
  dsimp only
  rw [if_neg hpos]
  by_cases hw : w.val = 0
  · rw [if_pos (hzero.mpr hw), if_pos hw]
  · have hlt : (scanUnsigned 16 w.digits).toNat < 2 ^ 32 := hval ▸ w.lt
    rw [if_neg (mt hzero.mp hw), if_neg hw, bxLoop_eq (mt hzero.mp hw) hlt (by decide), hval]
    by_cases hroom : w.val < 2 ^ (4 * w.digits.length - 1)
    · rw [if_pos hroom, if_pos (by simpa using hroom), List.append_nil]
      rfl
    · rw [if_neg hroom, if_neg (by simpa using hroom)]
      rfl

theorem bitChars_inj {l l' : List Bool} (h : bitChars l = bitChars l') : l = l' := by
  refine List.map_injective_iff.mpr ?_ h
  intro b b' hb
  cases b <;> cases b' <;> first | rfl | cases hb

/-- Of at most 32 digits the first one is the bit that may not be set. -/
theorem BitString.fits_iff_lt (s : BitString) (hlen : s.digits.length ≤ 32) :
    s.Fits ↔ s.val < 2 ^ 31 := by
  constructor
  · rintro (hlow | hall)
    · refine Nat.lt_pow_two_of_testBit _ fun k hk => ?_
      rw [BitString.val, testBit_value_two]
      exact hlow k hk
    · have hlast : bitAt s.digits 63 = true := hall 63 (by decide)
      rw [bitAt_of_length_le (hlen.trans (by decide))] at hlast
      cases hlast
  · intro hsmall
    refine Or.inl fun k hk => ?_
    have hpow : (2 : ℕ) ^ 31 ≤ 2 ^ k := Nat.pow_le_pow_right (by decide) hk
    have hbit := Nat.testBit_lt_two_pow (lt_of_lt_of_le hsmall hpow)
    rwa [BitString.val, testBit_value_two] at hbit

/-- What is printed for a number, and what is read there. -/
theorem rax_printedBits (hshl : rx.math.ShiftsInt) (hn : n ≠ 0) (hlt : n < 2 ^ 32) :
    rax rx {} (bitChars (printedBits 32 n) ++ [98]) = .ok ({}, hexLine (UInt64.ofNat n)) ↔
      n < 2 ^ 31 := by
  have hhead := head_printedBits hn hlt
  obtain ⟨l, hl⟩ : ∃ l, printedBits 32 n = true :: l := by
    obtain ⟨b, l, hbits⟩ := List.exists_cons_of_ne_nil (l := printedBits 32 n) (by
      rintro hnil
      rw [hnil] at hhead
      cases hhead)
    rw [hbits] at hhead
    exact ⟨l, hbits.trans (congrArg (· :: l) (Option.some.inj hhead))⟩
  have hlen : (true :: l).length ≤ 32 := by
    rw [← hl, printedBits, List.length_map]
    exact length_digits_le
  let s : BitString := ⟨true :: l, List.cons_ne_nil _ _, hlen.trans (by decide)⟩
  have hvalue : s.val = n := by
    have hdigits : s.val = value 2 (bitDigits (true :: l)) := rfl
    rw [hdigits, ← hl, bitDigits_printedBits, value_digits hlt]
  have hword : readBits rx.math (true :: l) = UInt64.ofNat n ↔ s.Fits := by
    rw [← readBits_eq_iff hshl s, hvalue]
  have hbits := rax_bits rx true l
  rw [if_pos rfl] at hbits
  rw [hl, hbits, ← hvalue, ← s.fits_iff_lt hlen, ← hword, hvalue]
  constructor
  · exact fun h => hexLine_inj (Prod.mk.inj (Except.ok.inj h)).2
  · exact fun h => by rw [h]

/-- **When a number printed in binary is read back.** -/
theorem roundTrips_iff (hshl : rx.math.ShiftsInt) (w : HexWord) :
    w.RoundTrips rx ↔ 0 < w.val ∧ w.val < 2 ^ 31 ∧ w.val < 2 ^ (4 * w.digits.length - 1) := by
  unfold HexWord.RoundTrips
  rw [rax_word]
  by_cases hw : w.val = 0
  · -- 0 is not printed in binary
    rw [if_pos hw]
    refine iff_of_false ?_ (by omega)
    rintro ⟨l, hout, -⟩
    have htext : [48, 120] ++ [48, 10] = bitChars l ++ [98, 10] :=
      (Prod.mk.inj (Except.ok.inj hout)).2
    exact absurd (List.append_inj' htext rfl).2 (by decide)
  · rw [if_neg hw]
    have hlt : w.val < 2 ^ 32 := w.lt
    have hread := rax_printedBits hshl hw hlt
    rw [and_iff_right (Nat.pos_of_ne_zero hw)]
    by_cases hroom : w.val < 2 ^ (4 * w.digits.length - 1)
    · rw [if_pos hroom, and_iff_left hroom, ← hread]
      constructor
      · rintro ⟨l, hout, hback⟩
        have htext : bitChars (printedBits 32 w.val) ++ [98, 10] = bitChars l ++ [98, 10] :=
          (Prod.mk.inj (Except.ok.inj hout)).2
        rwa [bitChars_inj (List.append_cancel_right htext)]
      · exact fun hback => ⟨_, rfl, hback⟩
    · rw [if_neg hroom]
      refine iff_of_false ?_ fun h => hroom h.2
      rintro ⟨l, hout, -⟩
      cases hout

/-- **When binary numbers are what they are.** For `get_offset`: if no digit is set
from bit 31 on, or each of 64 is. For `rax`, which agrees with it on numbers of at
most 32 digits that start with 1, and on 0 and 1. For a number that `rax` prints in
binary: if it is not 0, is below 2^31, and its first hexadecimal digit is small
enough for the buffers. An option of the text comes first in `get_offset`. -/
theorem binary_iff (rx : RaxEnv) (flags : List FlagT) (math : List u8 → ut64)
    (hshl : rx.math.ShiftsInt) :
    (∀ s : BitString, offsetOf (rx.math.withFlags flags) math s.text = UInt64.ofNat s.val ↔
      if (optionOf rx.math math s.text).toUInt32 ≠ 0 then
        optionOf rx.math math s.text = UInt64.ofNat s.val
      else s.Fits) ∧
    (∀ s : BitString, s.digits.length ≤ 32 → (s.Agrees rx flags math ↔
      if (optionOf rx.math math s.text).toUInt32 ≠ 0 then
        optionOf rx.math math s.text = UInt64.ofNat s.raxVal
      else s.digits.head? = some true ∨ s.val ≤ 1)) ∧
    ∀ w : HexWord, w.RoundTrips rx ↔
      0 < w.val ∧ w.val < 2 ^ 31 ∧ w.val < 2 ^ (4 * w.digits.length - 1) := by
  refine ⟨fun s => ?_, fun s hlen => agrees_iff hshl flags math hlen, roundTrips_iff hshl⟩
  rw [offsetOf_bits]
  by_cases hoption : (optionOf rx.math math s.text).toUInt32 ≠ 0
  · rw [if_pos hoption, if_pos hoption]
  · rw [if_neg hoption, if_neg hoption]
    exact readBits_eq_iff hshl s

/-- The shifts of an `int` of 32 bits, whose counts are taken modulo 32. -/
def intShifts : Utils.MathEnv where
  shl j := if j % 32 = 31 then 0xffffffff80000000 else UInt64.ofNat (2 ^ (j % 32))

theorem intShifts_shiftsInt : intShifts.ShiftsInt := fun _ _ => rfl

/-- `101b` is 5. -/
theorem binary_five :
    let s : BitString := ⟨[true, false, true], List.cons_ne_nil _ _, by decide⟩
    offsetOf (intShifts.withFlags []) (fun _ => 0) s.text = UInt64.ofNat s.val := by
  intro s
  refine ((binary_iff { math := intShifts } [] (fun _ => 0) intShifts_shiftsInt).1 s).mpr ?_
  have hoption : ¬(optionOf intShifts (fun _ => 0) s.text).toUInt32 ≠ 0 := fun h => h rfl
  rw [if_neg hoption]
  exact Or.inl fun k hk => bitAt_of_length_le ((by decide : 3 ≤ 31).trans hk)

/-- 2^31 in binary is read as another number. -/
theorem binary_sign :
    let s : BitString := ⟨true :: List.replicate 31 false, List.cons_ne_nil _ _, by decide⟩
    offsetOf (intShifts.withFlags []) (fun _ => 0) s.text ≠ UInt64.ofNat s.val := by
  intro s h
  have hoption : ¬(optionOf intShifts (fun _ => 0) s.text).toUInt32 ≠ 0 := fun h => h rfl
  rw [offsetOf_bits, if_neg hoption, readBits_eq_iff intShifts_shiftsInt] at h
  rcases h with hlow | hall
  · exact Bool.noConfusion (hlow 31 (by decide))
  · exact Bool.noConfusion (hall 0 (by decide))

end Radare
