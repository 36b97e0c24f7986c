import Radare.Common.Binary
import Radare.Utils.Literal
/-!
# Binary numbers

`get_offset` reads a binary number, with a `b` behind it, from its last digit
on, and sets a bit with `1<<j` for each one. The 1 is an `int`. From bit 31 on
there is no such `int`: the shift to bit 31 makes the sign and is extended by it,
and further shifts start again from bit 0. So a binary number is read as what it
is if no digit is set there (`readBits_eq_iff`), or all of 64.
-/

namespace Radare

open Common

/-- A binary number of at most 64 digits. -/
structure BitString where
  digits : List Bool
  ne_nil : digits ≠ []
  length_le : digits.length ≤ 64

/-- Digits as they are written. -/
def bitChars (l : List Bool) : List u8 := l.map fun b => if b then 49 else 48

/-- `1<<j` of an `int`, from bit 31 on. -/
def Utils.MathEnv.ShiftsInt (env : Utils.MathEnv) : Prop :=
  ∀ j, 31 ≤ j →
    env.shl j = if j % 32 = 31 then 0xffffffff80000000 else UInt64.ofNat (2 ^ (j % 32))

namespace BitString

/-- How it is written. -/
def text (s : BitString) : List u8 := bitChars s.digits ++ [98]

/-- The number. -/
def val (s : BitString) : ℕ := value 2 (bitDigits s.digits)

/-- No digit is set from bit 31 on, or each of 64 is. -/
def Fits (s : BitString) : Prop :=
  (∀ k, 31 ≤ k → bitAt s.digits k = false) ∨ ∀ k, k < 64 → bitAt s.digits k = true

end BitString

/-- What the loop over the digits makes of them. -/
def readBits (env : Utils.MathEnv) (l : List Bool) : ut64 :=
  Utils.binLoop env 0 0 (bitChars l).reverse

variable {env : Utils.MathEnv} {s : BitString} {l : List Bool} {c : u8} {i j k : ℕ} {ret : ut64}

/-! ## The loop -/

theorem testBit_or {x y : ut64} :
    (x ||| y).toNat.testBit k = (x.toNat.testBit k || y.toNat.testBit k) := by
  rw [UInt64.toNat_or, Nat.testBit_or]

/-- **The bits of what is read**: of each digit that is set, from the last one on,
those that its shift makes. -/
theorem testBit_binLoop (env : Utils.MathEnv) (l : List Bool) (j k : ℕ) (ret : ut64) :
    (Utils.binLoop env j ret (bitChars l)).toNat.testBit k = true ↔
      ret.toNat.testBit k = true ∨
        ∃ i, l.getD i false = true ∧ (Utils.shlOne env (j + i)).toNat.testBit k = true := by
  induction l generalizing j ret with
  | nil =>
    refine ⟨Or.inl, ?_⟩
    rintro (h | ⟨i, hi, -⟩)
    · exact h
    · cases hi
  | cons b l ih =>
    -- the shifts of the rest are one place on
    have hrest : (∃ i, l.getD i false = true ∧
        (Utils.shlOne env (j + 1 + i)).toNat.testBit k = true) ↔
          ∃ i, (b :: l).getD (i + 1) false = true ∧
            (Utils.shlOne env (j + (i + 1))).toNat.testBit k = true := by
      refine exists_congr fun i => ?_
      have hplace : j + 1 + i = j + (i + 1) := by omega
      rw [hplace, List.getD_cons_succ]
    have hsplit : (∃ i, (b :: l).getD i false = true ∧
        (Utils.shlOne env (j + i)).toNat.testBit k = true) ↔
          b = true ∧ (Utils.shlOne env j).toNat.testBit k = true ∨
            ∃ i, (b :: l).getD (i + 1) false = true ∧
              (Utils.shlOne env (j + (i + 1))).toNat.testBit k = true := by
      constructor
      · rintro ⟨i, hi⟩
        cases i with
        | zero => exact Or.inl hi
        | succ i => exact Or.inr ⟨i, hi⟩
      · rintro (h | ⟨i, hi⟩)
        · exact ⟨0, h⟩
        · exact ⟨i + 1, hi⟩
    rw [hsplit, ← hrest]
    cases b with
    | true =>
      have hstep : Utils.binLoop env j ret (bitChars (true :: l)) =
          Utils.binLoop env (j + 1) (ret ||| Utils.shlOne env j) (bitChars l) := rfl
      rw [hstep, ih, testBit_or, Bool.or_eq_true, or_assoc, and_iff_right rfl]
    | false =>
      have hstep : Utils.binLoop env j ret (bitChars (false :: l)) =
          Utils.binLoop env (j + 1) ret (bitChars l) := rfl
      rw [hstep, ih]
      simp only [Bool.false_eq_true, false_and, false_or]

theorem testBit_shlOne (hshl : env.ShiftsInt) (j : ℕ) (hk : k < 64) :
    (Utils.shlOne env j).toNat.testBit k = true ↔ if j % 32 = 31 then 31 ≤ k else k = j % 32 := by
  have hword : Utils.shlOne env j =
      if j % 32 = 31 then 0xffffffff80000000 else UInt64.ofNat (2 ^ (j % 32)) := by
    unfold Utils.shlOne
    by_cases hj : j < 31
    · have hmod : j % 32 = j := Nat.mod_eq_of_lt (by omega)
      rw [if_pos hj, hmod, if_neg (by omega)]
    · rw [if_neg hj, hshl j (by omega)]
  rw [hword]
  by_cases hsign : j % 32 = 31
  · have hbits : (0xffffffff80000000 : ut64).toNat = 2 ^ 31 * (2 ^ 33 - 1) + 0 := rfl
    rw [if_pos hsign, if_pos hsign, hbits, Nat.testBit_two_pow_mul_add _ (by decide)]
    by_cases hlow : k < 31
    · rw [if_pos hlow, Nat.zero_testBit]
      exact iff_of_false Bool.false_ne_true (by omega)
    · rw [if_neg hlow, Nat.testBit_two_pow_sub_one, decide_eq_true_eq]
      omega
  · have hlt : 2 ^ (j % 32) < 2 ^ 64 := Nat.pow_lt_pow_right (by decide) (by omega)
    have hnat : (UInt64.ofNat (2 ^ (j % 32))).toNat = 2 ^ (j % 32) :=
      (UInt64.toNat_ofNat' ..).trans (Nat.mod_eq_of_lt hlt)
    rw [if_neg hsign, if_neg hsign, hnat, Nat.testBit_two_pow, decide_eq_true_eq, eq_comm]

/-- **The bits of a binary number**, as it is read. -/
theorem testBit_readBits (hshl : env.ShiftsInt) (l : List Bool) (hk : k < 64) :
    (readBits env l).toNat.testBit k = true ↔
      ∃ i, bitAt l i = true ∧ if i % 32 = 31 then 31 ≤ k else k = i % 32 := by
  have hrev : (bitChars l).reverse = bitChars l.reverse := List.map_reverse.symm
  have hzero : (0 : ut64).toNat.testBit k = false := Nat.zero_testBit k
  unfold readBits
  rw [hrev, testBit_binLoop, hzero]
  simp only [Bool.false_eq_true, false_or, Nat.zero_add]
  exact exists_congr fun i => and_congr_right fun _ => testBit_shlOne hshl i hk

theorem BitString.val_lt (s : BitString) : s.val < 2 ^ 64 :=
  lt_of_lt_of_le value_two_lt (Nat.pow_le_pow_right (by decide) s.length_le)

/-- Two words are the same by their bits. -/
theorem eq_ofNat_iff {x : ut64} {n : ℕ} (hn : n < 2 ^ 64) :
    x = UInt64.ofNat n ↔ ∀ k, k < 64 → x.toNat.testBit k = n.testBit k := by
  have hnat : (UInt64.ofNat n).toNat = n := (UInt64.toNat_ofNat' ..).trans (Nat.mod_eq_of_lt hn)
  rw [← UInt64.toNat_inj, hnat]
  constructor
  · exact fun h k _ => by rw [h]
  · intro h
    refine Nat.eq_of_testBit_eq fun k => ?_
    by_cases hk : k < 64
    · exact h k hk
    · have hpow : (2 : ℕ) ^ 64 ≤ 2 ^ k := Nat.pow_le_pow_right (by decide) (Nat.le_of_not_lt hk)
      rw [Nat.testBit_lt_two_pow (lt_of_lt_of_le x.toNat_lt hpow),
        Nat.testBit_lt_two_pow (lt_of_lt_of_le hn hpow)]

/-- A digit sets the bit: its own one modulo 32, and from the sign on all. -/
def BitString.Sets (s : BitString) (k : ℕ) : Prop :=
  ∃ i, bitAt s.digits i = true ∧ if i % 32 = 31 then 31 ≤ k else k = i % 32

theorem BitString.lt_of_bitAt (s : BitString) {i : ℕ} (hi : bitAt s.digits i = true) : i < 64 := by
  by_contra hlong
  have hle := s.length_le
  rw [bitAt_of_length_le (by omega)] at hi
  cases hi

theorem readBits_eq_iff_sets (hshl : env.ShiftsInt) (s : BitString) :
    readBits env s.digits = UInt64.ofNat s.val ↔
      ∀ k, k < 64 → (s.Sets k ↔ bitAt s.digits k = true) := by
  rw [eq_ofNat_iff s.val_lt]
  refine forall_congr' fun k => forall_congr' fun hk => ?_
  rw [BitString.val, testBit_value_two, Bool.eq_iff_iff, testBit_readBits hshl s.digits hk]
  rfl

/-- A digit that makes the sign sets all bits above it, and these the ones
below. -/
theorem BitString.fits_of_sign {s : BitString} {i : ℕ}
    (h : ∀ k, k < 64 → s.Sets k → bitAt s.digits k = true) (hi : bitAt s.digits i = true)
    (hmod : i % 32 = 31) : s.Fits := by
  have hhigh : ∀ k, 31 ≤ k → k < 64 → bitAt s.digits k = true := fun k hle hk =>
    h k hk ⟨i, hi, by rwa [if_pos hmod]⟩
  refine Or.inr fun k hk => ?_
  by_cases hlow : 31 ≤ k
  · exact hhigh k hlow hk
  · have hmod' : (k + 32) % 32 = k := by omega
    refine h k hk ⟨k + 32, hhigh (k + 32) (by omega) (by omega), ?_⟩
    rw [hmod', if_neg (by omega)]

theorem BitString.fits_of_sets {s : BitString}
    (h : ∀ k, k < 64 → (s.Sets k ↔ bitAt s.digits k = true)) : s.Fits := by
  have hsign := fun i => s.fits_of_sign (i := i) fun k hk => (h k hk).mp
  by_cases hset : ∃ i, 31 ≤ i ∧ bitAt s.digits i = true
  · obtain ⟨i, hle, hi⟩ := hset
    by_cases hmod : i % 32 = 31
    · exact hsign i hi hmod
    · -- a digit beyond it has to come from one that makes the sign
      have hlt := s.lt_of_bitAt hi
      obtain ⟨i', hi', hcase⟩ := (h i hlt).mpr hi
      by_cases hmod' : i' % 32 = 31
      · exact hsign i' hi' hmod'
      · rw [if_neg hmod'] at hcase
        omega
  · refine Or.inl fun k hk => ?_
    rw [← Bool.not_eq_true]
    exact fun hk' => hset ⟨k, hk, hk'⟩

theorem BitString.Fits.sets_iff {s : BitString} (h : s.Fits) {k : ℕ} (hk : k < 64) :
    s.Sets k ↔ bitAt s.digits k = true := by
  rcases h with hlow | hall
  · have hlt : ∀ i, bitAt s.digits i = true → i < 31 := by
      intro i hi
      by_contra hle
      rw [hlow i (by omega)] at hi
      cases hi
    constructor
    · rintro ⟨i, hi, hcase⟩
      have := hlt i hi
      rw [if_neg (by omega)] at hcase
      have heq : k = i := by omega
      rwa [heq]
    · intro hset
      have := hlt k hset
      exact ⟨k, hset, by rw [if_neg (by omega)]; omega⟩
  · refine iff_of_true ?_ (hall k hk)
    by_cases hlow : k < 31
    · exact ⟨k, hall k hk, by rw [if_neg (by omega)]; omega⟩
    · exact ⟨31, hall 31 (by omega), by rw [if_pos rfl]; omega⟩

/-- **When a binary number is read as it is**: no digit is set from bit 31 on, or
each of 64 is. -/
theorem readBits_eq_iff (hshl : env.ShiftsInt) (s : BitString) :
    readBits env s.digits = UInt64.ofNat s.val ↔ s.Fits := by
  rw [readBits_eq_iff_sets hshl]
  exact ⟨BitString.fits_of_sets, fun h k hk => h.sets_iff hk⟩

/-! ## `get_offset` -/

theorem of_mem_bits (hc : c ∈ bitChars l ++ [98]) : c = 48 ∨ c = 49 ∨ c = 98 := by
  rcases List.mem_append.mp hc with hc | hc
  · obtain ⟨b, -, rfl⟩ := List.mem_map.mp hc
    cases b
    · exact Or.inl rfl
    · exact Or.inr (Or.inl rfl)
  · exact Or.inr (Or.inr (List.mem_singleton.mp hc))

theorem numberOffset_bits (env : Utils.MathEnv) (ret : ut64) (l : List Bool) :
    Utils.numberOffset env ret (bitChars l ++ [98])
      ((bitChars l ++ [98]).set (bitChars l ++ [98]).length 0) 1 = readBits env l := by
  have hset : (bitChars l ++ [98]).set (bitChars l ++ [98]).length 0 = bitChars l ++ [98] :=
    List.set_eq_of_length_le le_rfl
  have hnox :
      ¬((bitChars l ++ [98]).getD 1 0 = 120 ∧ (bitChars l ++ [98]).getD (1 - 1) 0 = 48) := by
    rintro ⟨h, -⟩
    rw [List.getD_eq_getElem?_getD] at h
    cases hget : (bitChars l ++ [98])[1]? with
    | none =>
      rw [hget] at h
      cases h
    | some c =>
      rw [hget] at h
      have hc : c = 120 := h
      rcases of_mem_bits (List.mem_of_getElem? hget) with h' | h' | h' <;> (rw [hc] at h'; cases h')
  have hlast : (bitChars l ++ [98]).getLast?.getD env.before = 98 := by
    rw [List.getLast?_concat]
    rfl
  unfold Utils.numberOffset
  rw [hset, if_neg hnox, hlast]
  dsimp only
  rw [List.dropLast_concat]
  rfl

/-- The flags make no difference to it. -/
theorem readBits_withFlags (env : Utils.MathEnv) (flags : List FlagT) (l : List Bool) :
    readBits (env.withFlags flags) l = readBits env l := by
  have hloop : ∀ (text : List u8) (j : ℕ) (ret : ut64),
      Utils.binLoop (env.withFlags flags) j ret text = Utils.binLoop env j ret text := by
    intro text
    induction text with
    | nil => exact fun _ _ => rfl
    | cons c text ih =>
      intro j ret
      rw [Utils.binLoop, Utils.binLoop, ih, ih]
      rfl
  exact hloop _ 0 0

/-- **A binary number, in `get_offset`**: its option, or what the loop makes of
it. -/
theorem offsetOf_bits (env : Utils.MathEnv) (flags : List FlagT) (math : List u8 → ut64)
    (s : BitString) :
    offsetOf (env.withFlags flags) math s.text =
      if (optionOf env math s.text).toUInt32 ≠ 0 then optionOf env math s.text
      else readBits env s.digits := by
  obtain ⟨b, l, hbl⟩ := List.exists_cons_of_ne_nil s.ne_nil
  have hchar : ∀ c ∈ s.text, c = 48 ∨ c = 49 ∨ c = 98 := fun c hc => of_mem_bits hc
  have hnot : ∀ d : u8, d ≠ 48 → d ≠ 49 → d ≠ 98 → d ∉ s.text := by
    intro d h48 h49 h98 hd
    rcases hchar d hd with h | h | h
    · exact h48 h
    · exact h49 h
    · exact h98 h
  have hhead : ∃ c w, s.text = c :: w ∧ 48 ≤ c ∧ c ≤ 57 := by
    refine ⟨if b then 49 else 48, bitChars l ++ [98], ?_, ?_⟩
    · rw [BitString.text, hbl]
      rfl
    · cases b <;> decide
  have hdrop : s.text.dropWhile (· = 32) = s.text := by
    obtain ⟨c, w, hcw, hc, -⟩ := hhead
    have hblank : ¬decide (c = 32) = true := by
      intro h
      rw [of_decide_eq_true h] at hc
      exact absurd hc (by decide)
    rw [hcw]
    exact List.dropWhile_cons_of_neg hblank
  have hword : s.text.takeWhile (· ≠ 32) = s.text := by
    refine List.takeWhile_eq_self_iff.mpr fun c hc => decide_eq_true ?_
    rintro rfl
    exact hnot 32 (by decide) (by decide) (by decide) hc
  have hsecond : s.text.getD 1 0 ≠ 36 := by
    rw [List.getD_eq_getElem?_getD]
    cases hget : s.text[1]? with
    | none => exact fun h => by cases h
    | some c =>
      rintro rfl
      exact hnot 36 (by decide) (by decide) (by decide) (List.mem_of_getElem? hget)
  have hprog : Utils.getOffset (env.withFlags flags) s.text = _ := getOffset_word hdrop hword hhead
    (hnot 91 (by decide) (by decide) (by decide)) hsecond (withFlags_digit env flags)
  have hnumber : ∀ ret, Utils.numberOffset (env.withFlags flags) ret s.text
      (s.text.set s.text.length 0) 1 = readBits env s.digits := fun ret =>
    (numberOffset_bits (env.withFlags flags) ret s.digits).trans (readBits_withFlags env flags _)
  unfold offsetOf
  rw [hprog, Prog.inside_bind,
    Prog.run_bind_of (run_configGetI (env.withFlags flags) math s.text _), hnumber]
  rfl

end Radare
