import Mathlib.Data.List.Infix
import Radare.Cons.Grep
import Radare.Model.Text
/-!
# A string by a mask

`str_grep` tells whether a string starts with a word, ends with one, or has one
in it, by a mark that the needle starts or ends with. The mark at the end is
looked for at the index of the last character of the string, and not of the
needle: so it is found only where the two are of one length, and where the
string is empty, or longer than the needle by two, that index is outside of the
needle. The mark at the front is found, but a needle that is longer than the
string by the mark alone is taken for one that is too long.

The lengths are those of strings that an `int` can count.
-/

namespace Radare

/-! ## The code -/

/-- `memcmp` of `n` bytes, from a place of each of two strings, and inside both
with their NUL: whether it finds no difference. -/
def memcmpAt (str : List u8) (p : ℕ) (needle : List u8) (q n : ℕ) : Option Bool :=
  if p + n ≤ str.length + 1 ∧ q + n ≤ needle.length + 1 then
    some (decide (((str ++ [0]).drop p).take n = ((needle ++ [0]).drop q).take n))
  else none

/-- The character of the needle that is looked at for a mark. -/
def markAt (needle : List u8) (lenstr : ℕ) : Option u8 :=
  if lenstr = 0 then none else (needle ++ [0])[lenstr - 1]?

/-- `str_grep`, with nothing for a look outside of a string. -/
def strGrep (str needle : List u8) : Option ℕ :=
  let len := needle.length
  let lenstr := str.length
  if needle.headD 0 = 94 then
    if len > lenstr then some 0 else (memcmpAt str 0 needle 1 (len - 1)).map Bool.toNat
  else (markAt needle lenstr).bind fun c =>
    if c = 42 then
      if len > lenstr then some 0 else (memcmpAt str 0 needle 0 lenstr).map Bool.toNat
    else if c = 36 then
      if len > lenstr then some 0
      else (memcmpAt str (lenstr - len + 1) needle 0 (len - 1)).map Bool.toNat
    else some (strstr str needle).toNat

/-! ## What it is for -/

/-- What a needle says of a string. -/
def Says (needle str : List u8) : Prop :=
  if needle.headD 0 = 94 then needle.tail <+: str
  else if needle.getLast? = some 42 then needle.dropLast <+: str
  else if needle.getLast? = some 36 then needle.dropLast <:+ str
  else needle <:+: str

/-- What makes the result right: behind a mark at the front the word is not the
string itself; with none there the index of the last character is inside of the
needle, a mark at the end makes no difference to what is in the string, or it
ends a needle that is as long as the string. -/
def SaysRight (needle str : List u8) : Prop :=
  if needle.headD 0 = 94 then needle.tail ≠ str
  else str ≠ [] ∧ str.length ≤ needle.length + 1 ∧
    (needle.getLast? = some 42 → (needle.dropLast <+: str ↔ needle <:+: str)) ∧
    (needle.getLast? = some 36 →
      str.length = needle.length ∨ (needle.dropLast <:+ str ↔ needle <:+: str))

variable {str needle : List u8}

/-! ## A mark at the front -/

theorem strGrep_front (hmark : needle.headD 0 = 94) :
    strGrep str needle =
      some (decide (needle.length ≤ str.length ∧ needle.tail <+: str)).toNat := by
  obtain ⟨w, rfl⟩ : ∃ w, needle = 94 :: w := by
    cases needle with
    | nil => exact absurd hmark (by decide)
    | cons c w => exact ⟨w, congrArg (· :: w) hmark⟩
  have hlen : (94 :: w : List u8).length - 1 = w.length := rfl
  rw [strGrep, if_pos hmark, hlen]
  by_cases hlong : (94 :: w : List u8).length > str.length
  · have hnot : ¬((94 :: w : List u8).length ≤ str.length ∧ (94 :: w : List u8).tail <+: str) :=
      fun h => absurd h.1 (Nat.not_le.mpr hlong)
    rw [if_pos hlong, decide_eq_false hnot]
    rfl
  · rw [List.length_cons] at hlong
    have hstr : ((str ++ [0]).drop 0).take w.length = str.take w.length := by
      rw [List.drop_zero, List.take_append_of_le_length (by omega)]
    have hw : ((94 :: w ++ [0] : List u8).drop 1).take w.length = w := by
      rw [List.cons_append, List.drop_succ_cons, List.drop_zero, List.take_left]
    have hprefix : (str.take w.length = w) ↔
        ((94 :: w : List u8).length ≤ str.length ∧ (94 :: w : List u8).tail <+: str) := by
      rw [List.tail_cons, List.prefix_iff_eq_take, List.length_cons, eq_comm]
      exact ⟨fun h => ⟨by omega, h⟩, fun h => h.2⟩
    rw [if_neg (by rwa [List.length_cons]), memcmpAt,
      if_pos ⟨by omega, by rw [List.length_cons]; omega⟩, hstr, hw, decide_eq_decide.mpr hprefix]
    rfl

/-! ## No mark at the front -/

theorem markAt_none_iff : markAt needle str.length = none ↔
    str = [] ∨ needle.length + 1 < str.length := by
  rw [markAt]
  by_cases hstr : str.length = 0
  · rw [if_pos hstr]
    exact iff_of_true rfl (Or.inl (List.eq_nil_of_length_eq_zero hstr))
  · have hne : str ≠ [] := fun h => hstr (congrArg List.length h)
    rw [if_neg hstr, List.getElem?_eq_none_iff, List.length_append, List.length_singleton]
    constructor
    · intro h
      exact Or.inr (by omega)
    · intro h
      have := h.resolve_left hne
      omega

/-- The last character of a needle is where that of a string of its length is. -/
theorem markAt_length (hlen : str.length = needle.length) (hstr : str ≠ []) :
    markAt needle str.length = needle.getLast? := by
  have hpos : str.length ≠ 0 := fun h => hstr (List.eq_nil_of_length_eq_zero h)
  rw [markAt, if_neg hpos, hlen, List.getLast?_eq_getElem?,
    List.getElem?_append_left (by omega)]

/-- A needle of the string's length that ends in the mark for an end is compared
without the mark, with what is behind the first character. -/
theorem tail_eq_dropLast_iff (hlen : str.length = needle.length) (hstr : str ≠ []) :
    str.tail = needle.dropLast ↔ needle.dropLast <:+ str := by
  have hpos : str.length ≠ 0 := fun h => hstr (List.eq_nil_of_length_eq_zero h)
  have hone : str.length - (needle.length - 1) = 1 := by omega
  rw [List.suffix_iff_eq_drop, List.length_dropLast, hone, List.drop_one, eq_comm]

/-- A longer needle is not in the string, whatever the character is. -/
theorem strGrep_longer (hmark : needle.headD 0 ≠ 94) (hstr : str ≠ [])
    (hlt : str.length < needle.length) :
    strGrep str needle = some (decide (needle <:+: str)).toNat := by
  have hnot : ¬needle <:+: str := fun h => absurd h.length_le (Nat.not_le.mpr hlt)
  obtain ⟨c, hc⟩ : ∃ c, markAt needle str.length = some c := by
    rw [← Option.isSome_iff_exists, Option.isSome_iff_ne_none]
    intro hnone
    rcases markAt_none_iff.mp hnone with h | h
    · exact hstr h
    · omega
  rw [strGrep, if_neg hmark, hc, Option.bind_some, if_pos hlt, if_pos hlt, strstr,
    decide_eq_false hnot]
  split_ifs <;> rfl

/-- The character is the last one of a needle of the length of the string. -/
theorem strGrep_same (hmark : needle.headD 0 ≠ 94) (hstr : str ≠ [])
    (heq : str.length = needle.length) :
    strGrep str needle = some (if needle.getLast? = some 36 then decide (needle.dropLast <:+ str)
      else decide (needle <:+: str)).toNat := by
  have hpos : str.length ≠ 0 := fun h => hstr (List.eq_nil_of_length_eq_zero h)
  obtain ⟨c, hc⟩ : ∃ c, needle.getLast? = some c :=
    ⟨_, List.getLast?_eq_some_getLast (fun h => hpos (heq.trans (congrArg List.length h)))⟩
  have hsame : str = needle ↔ needle <:+: str :=
    ⟨fun h => h ▸ List.infix_refl _, fun h => (h.eq_of_length heq.symm).symm⟩
  have hbytes : ((str ++ [0]).drop 0).take str.length = str := by
    rw [List.drop_zero, List.take_left]
  have hword : ((needle ++ [0]).drop 0).take str.length = needle := by
    rw [List.drop_zero, heq, List.take_left]
  have htail : ((str ++ [0]).drop (str.length - needle.length + 1)).take (needle.length - 1) =
      str.tail := by
    have hone : str.length - needle.length + 1 = 1 := by omega
    have hlen : needle.length - 1 = str.tail.length := by rw [List.length_tail]; omega
    rw [hone, hlen, List.drop_append_of_le_length (by omega), List.drop_one, List.take_left]
  have hinit : ((needle ++ [0]).drop 0).take (needle.length - 1) = needle.dropLast := by
    rw [List.drop_zero, List.take_append_of_le_length (by omega), List.dropLast_eq_take]
  have hlong : ¬needle.length > str.length := by omega
  rw [strGrep, if_neg hmark, markAt_length heq hstr, hc, Option.bind_some, if_neg hlong,
    if_neg hlong]
  by_cases hfront : c = 42
  · have hcond : ¬some c = some (36 : u8) := by
      rw [hfront]
      decide
    rw [if_pos hfront, if_neg hcond, memcmpAt, if_pos ⟨by omega, by omega⟩, hbytes, hword,
      decide_eq_decide.mpr hsame]
    rfl
  · rw [if_neg hfront]
    by_cases hend : c = 36
    · rw [if_pos hend, if_pos (congrArg some hend), memcmpAt, if_pos ⟨by omega, by omega⟩, htail,
        hinit, decide_eq_decide.mpr (tail_eq_dropLast_iff heq hstr)]
      rfl
    · have hcond : ¬some c = some (36 : u8) := fun h => hend (Option.some.inj h)
      rw [if_neg hend, if_neg hcond]
      rfl

/-- The character is the NUL of a needle that is shorter by one. -/
theorem strGrep_shorter (hmark : needle.headD 0 ≠ 94) (hlen : str.length = needle.length + 1) :
    strGrep str needle = some (decide (needle <:+: str)).toNat := by
  have hnul : markAt needle str.length = some 0 := by
    have hindex : str.length - 1 = needle.length := by omega
    rw [markAt, if_neg (by omega), hindex, List.getElem?_append_right (le_refl _), Nat.sub_self]
    rfl
  rw [strGrep, if_neg hmark, hnul, Option.bind_some, if_neg (by decide), if_neg (by decide)]
  rfl

/-- **Inside of the needle** the mark for a front is never one, and the mark for
an end is one only at the length of the string. -/
theorem strGrep_inside (hmark : needle.headD 0 ≠ 94) (hstr : str ≠ [])
    (hle : str.length ≤ needle.length + 1) :
    strGrep str needle =
      some (if needle.getLast? = some 36 ∧ str.length = needle.length
        then decide (needle.dropLast <:+ str) else decide (needle <:+: str)).toNat := by
  rcases Nat.lt_trichotomy str.length needle.length with hlt | heq | hgt
  · rw [strGrep_longer hmark hstr hlt, if_neg fun h => absurd h.2 hlt.ne]
  · rw [strGrep_same hmark hstr heq, if_congr (and_iff_left heq).symm rfl rfl]
  · rw [strGrep_shorter hmark (by omega), if_neg fun h => absurd h.2 hgt.ne']

/-- **Outside of the needle** there is no result. -/
theorem strGrep_outside (hmark : needle.headD 0 ≠ 94)
    (hout : str = [] ∨ needle.length + 1 < str.length) : strGrep str needle = none := by
  rw [strGrep, if_neg hmark, markAt_none_iff.mpr hout]
  rfl

/-! ## When the result is right -/

theorem toNat_decide_eq_one_iff {p : Prop} [Decidable p] : (decide p).toNat = 1 ↔ p := by
  by_cases hp : p
  · rw [decide_eq_true hp]
    exact iff_of_true rfl hp
  · rw [decide_eq_false hp]
    exact iff_of_false (by decide) hp

theorem front_right_iff (hmark : needle.headD 0 = 94) :
    (∃ r, strGrep str needle = some r ∧ (r = 1 ↔ needle.tail <+: str)) ↔ needle.tail ≠ str := by
  have hneedle : needle.length = needle.tail.length + 1 := by
    have hne : needle ≠ [] := by
      intro h
      rw [h] at hmark
      exact absurd hmark (by decide)
    have := List.length_pos_iff.mpr hne
    rw [List.length_tail]
    omega
  rw [strGrep_front hmark]
  simp only [Option.some.injEq, exists_eq_left', toNat_decide_eq_one_iff]
  constructor
  · rintro h rfl
    have := (h.mpr (List.prefix_refl _)).1
    omega
  · intro hne
    refine ⟨fun h => h.2, fun h => ⟨?_, h⟩⟩
    have hlt : needle.tail.length ≠ str.length := fun heq => hne (h.eq_of_length heq)
    have := h.length_le
    omega

theorem inside_right_iff (hmark : needle.headD 0 ≠ 94) (hstr : str ≠ [])
    (hle : str.length ≤ needle.length + 1) :
    (∃ r, strGrep str needle = some r ∧ (r = 1 ↔
      if needle.getLast? = some 42 then needle.dropLast <+: str
      else if needle.getLast? = some 36 then needle.dropLast <:+ str else needle <:+: str)) ↔
    (needle.getLast? = some 42 → (needle.dropLast <+: str ↔ needle <:+: str)) ∧
      (needle.getLast? = some 36 →
        str.length = needle.length ∨ (needle.dropLast <:+ str ↔ needle <:+: str)) := by
  rw [strGrep_inside hmark hstr hle]
  simp only [Option.some.injEq, exists_eq_left']
  by_cases hfront : needle.getLast? = some 42
  · have hend : needle.getLast? ≠ some 36 := by rw [hfront]; decide
    rw [if_neg (fun h => hend h.1), if_pos hfront, toNat_decide_eq_one_iff]
    exact ⟨fun h => ⟨fun _ => h.symm, fun h' => absurd h' hend⟩, fun h => (h.1 hfront).symm⟩
  rw [if_neg hfront]
  by_cases hend : needle.getLast? = some 36
  · rw [if_pos hend]
    by_cases hlen : str.length = needle.length
    · rw [if_pos ⟨hend, hlen⟩, toNat_decide_eq_one_iff]
      exact iff_of_true Iff.rfl ⟨fun h => absurd h hfront, fun _ => Or.inl hlen⟩
    · rw [if_neg (fun h => hlen h.2), toNat_decide_eq_one_iff]
      exact ⟨fun h => ⟨fun h' => absurd h' hfront, fun _ => Or.inr h.symm⟩,
        fun h => ((h.2 hend).resolve_left hlen).symm⟩
  · rw [if_neg (fun h => hend h.1), if_neg hend, toNat_decide_eq_one_iff]
    exact iff_of_true Iff.rfl ⟨fun h => absurd h hfront, fun h => absurd h hend⟩

/-- **A string is told by a needle** for what the needle says of it, without a
look outside of the two, just when `SaysRight` of them. -/
theorem strGrep_iff (str needle : CText) :
    (∃ r, strGrep str.val needle.val = some r ∧ (r = 1 ↔ Says needle.val str.val)) ↔
      SaysRight needle.val str.val := by
  obtain ⟨str, -⟩ := str
  obtain ⟨needle, -⟩ := needle
  simp only [Says, SaysRight]
  by_cases hmark : needle.headD 0 = 94
  · rw [if_pos hmark, if_pos hmark]
    exact front_right_iff hmark
  · rw [if_neg hmark, if_neg hmark]
    by_cases hin : str ≠ [] ∧ str.length ≤ needle.length + 1
    · rw [← and_assoc, and_iff_right hin]
      exact inside_right_iff hmark hin.1 hin.2
    · have hout : str = [] ∨ needle.length + 1 < str.length := by
        by_cases hstr : str = []
        · exact Or.inl hstr
        · exact Or.inr (Nat.lt_of_not_le fun h => hin ⟨hstr, h⟩)
      rw [strGrep_outside hmark hout]
      constructor
      · rintro ⟨r, hr, -⟩
        exact absurd hr (by simp)
      · rintro ⟨hstr, hle, -⟩
        exact absurd ⟨hstr, hle⟩ hin

/-- The string `ab` is not told by `^ab`. -/
theorem strGrep_caret_word :
    ¬∃ r, strGrep [97, 98] [94, 97, 98] = some r ∧ (r = 1 ↔ Says [94, 97, 98] [97, 98]) := by
  rintro ⟨r, hr, hiff⟩
  have hzero : r = 0 := (Option.some.inj hr).symm
  have hstarts : Says [94, 97, 98] [97, 98] := List.prefix_refl _
  have := hiff.mpr hstarts
  omega

end Radare
