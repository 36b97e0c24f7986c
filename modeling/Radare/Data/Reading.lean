import Radare.Flags.Model
import Radare.Rio.CommandLine
import Radare.Utils.Math
/-!
# Numbers with a label behind

An address in a listing has a label behind it: the names of the flags that
are there, or the one before with a distance, as `string_flag_offset` writes
it. `get_math` does not stop at the `;` between them. It reads the digits of
the address, and adds what is behind a `+` of the label
(`getMathText_address`).

Here `get_math` is followed through sums of numbers that have other
characters behind them; what it makes of other texts is left to the
program's `Numbers`.
-/

namespace Radare

open Common

variable {nums : Numbers} {s : State} {n x : ut64} {w b : ℕ} {c : u8} {rest : List u8}

/-! ## `utils.c` -/

/-- `get_offset`, of a number. It is asked for as a variable first; no flag
that `flag_get` finds starts with a digit. -/
def getOffsetText (nums : Numbers) (s : State) (orig : List u8) : ut64 :=
  let arg := orig.dropWhile (· = 32)
  let word := arg.takeWhile (· ≠ 32)
  let hex : Bool := word.take 2 = [48, 120]
  let dec : Bool := word ≠ [] ∧ ∀ c ∈ word, 48 ≤ c ∧ c ≤ 57
  if orig = [] then 0
  else if 91 ∈ arg ∨ !(hex || dec) then nums.offset s orig
  else
    let ret := nums.configGetI arg
    if ret.toNat % 2 ^ 32 ≠ 0 then ret
    else (if hex then Utils.scanBase 16 (word.drop 2) else Utils.scanDec word).getD ret

/-- `get_math`, of a sum. -/
def getMathText (nums : Numbers) (s : State) (text : List u8) : ut64 :=
  if text = [] then 0
  else
    let txt := squeeze text
    if txt.head? = some 43 ∨ txt.any fun c => c ≠ 43 ∧ operators.contains c then nums.math s text
    else ((txt.splitOn 43).map (getOffsetText nums s)).foldl (· + ·) 0

/-! ## Labels -/

/-- What `string_flag_offset` writes: the names of flags, or one with a
distance, `%s+0x%lx`. -/
structure Label where
  name : List u8
  delta : Option ut64

/-- A distance. -/
def deltaText (d : ut64) : List u8 := [48, 120] ++ hexText 1 d

def Label.text (l : Label) : List u8 :=
  l.name ++ match l.delta with
    | none => []
    | some d => 43 :: deltaText d

/-- Names that flags may have, without `&`, `:`, `\`, `|` and `~`. -/
def Label.Plain (l : Label) : Prop :=
  ∀ c ∈ l.name, flagIsValidChar c = true ∧ c ∉ [38, 58, 92, 124, 126]

/-- What a number that starts with a digit is read as: a variable of that
name comes first. -/
def Numbers.named (nums : Numbers) (arg : List u8) (n : ut64) : ut64 :=
  let ret := nums.configGetI arg
  if ret.toNat % 2 ^ 32 ≠ 0 then ret else n

/-- What an address with a label is read as. -/
def Numbers.address (nums : Numbers) (n : ut64) (l : Label) : ut64 :=
  nums.named (hexWord n ++ 59 :: l.name) n +
    match l.delta with
    | none => 0
    | some d => nums.named (deltaText d) d

/-! ## Numbers read -/

theorem hexDigit_of_mem_hexText (hc : c ∈ hexText w n) :
    (hexDigit c).any (· < 16) = true := by
  obtain ⟨d, hd, rfl⟩ := List.mem_map.mp hc
  have hlt := lt_of_mem_padded (by decide) hd
  rw [hexDigit_digitChar hlt]
  exact decide_eq_true hlt

theorem filterMap_digitChar {ds : List ℕ} (hds : ∀ d ∈ ds, d < 16) :
    (ds.map digitChar).filterMap hexDigit = ds := by
  have hsome : ∀ d ∈ ds, (hexDigit ∘ digitChar) d = some d :=
    fun d hd => hexDigit_digitChar (hds d hd)
  rw [List.filterMap_map, List.filterMap_congr hsome, List.filterMap_some]

/-- Digits up to what is none of them. -/
theorem scanDigits_append {b : ℕ} {t : List u8} (ht : ∀ c ∈ t, (hexDigit c).any (· < b) = true)
    (hrest : ∀ c ∈ rest.head?, hexDigit c = none) :
    Utils.scanDigits b (t ++ rest) = t.filterMap hexDigit := by
  unfold Utils.scanDigits
  rw [List.takeWhile_append_of_pos ht]
  cases rest with
  | nil => rw [List.takeWhile_nil, List.append_nil]
  | cons c rest =>
    rw [List.takeWhile_cons_of_neg (by rw [hrest c rfl]; exact Bool.false_ne_true), List.append_nil]

/-- A text that starts with a digit has no blank and no sign in front. -/
theorem scanSign_digit {t : List u8} (hc : (hexDigit c).isSome) :
    Utils.scanSign (Utils.skipSpace (c :: t)) = (false, c :: t) := by
  have hspace : ¬(c = 32 ∨ 9 ≤ c ∧ c ≤ 13) := by
    rintro (rfl | ⟨hlo, hhi⟩)
    · exact absurd hc (by decide)
    · have hnone : hexDigit c = none := by
        unfold hexDigit
        rw [if_neg fun h => ?_, if_neg fun h => ?_, if_neg fun h => ?_]
        · exact absurd (UInt8.le_trans h.1 hhi) (by decide)
        · exact absurd (UInt8.le_trans h.1 hhi) (by decide)
        · exact absurd (UInt8.le_trans h.1 hhi) (by decide)
      rw [hnone] at hc
      cases hc
  have hskip : Utils.skipSpace (c :: t) = c :: t :=
    List.dropWhile_cons_of_neg fun h => hspace (of_decide_eq_true h)
  have hsign : ∀ d : u8, hexDigit d = none → (c :: t).head? ≠ some d := by
    intro d hd heq
    rw [Option.some.inj heq, hd] at hc
    cases hc
  rw [hskip, Utils.scanSign, if_neg (hsign 45 (by decide)), if_neg (hsign 43 (by decide))]

/-- Behind a number there is nothing that could go on with it. -/
def EndsNumber (rest : List u8) : Prop := ∀ c ∈ rest.head?, hexDigit c = none ∧ c ≠ 120 ∧ c ≠ 88

theorem endsNumber_nil : EndsNumber [] := fun c hc => by cases hc

/-- Digits have no sign in front, and are some. -/
theorem scanSign_digits {t : List u8} (hne : t ≠ []) (hw : ∀ c ∈ t, (hexDigit c).any (· < b) = true)
    (rest : List u8) :
    Utils.scanSign (Utils.skipSpace (t ++ rest)) = (false, t ++ rest) ∧
      t.filterMap hexDigit ≠ [] := by
  obtain ⟨c, t, rfl⟩ := List.exists_cons_of_ne_nil hne
  have hc : (hexDigit c).isSome := Option.isSome_of_any (hw c List.mem_cons_self)
  obtain ⟨d, hd⟩ := Option.isSome_iff_exists.mp hc
  refine ⟨scanSign_digit hc, ?_⟩
  rw [List.filterMap_cons_some hd]
  exact List.cons_ne_nil _ _

/-- Digits do not start with `0x`, and what is behind does not make them. -/
theorem scanPrefix_digits {t : List u8} (hne : t ≠ []) (hw : ∀ c ∈ t, (hexDigit c).any (· < 16) = true)
    (hrest : EndsNumber rest) : Utils.scanPrefix 16 (t ++ rest) = false := by
  refine decide_eq_false ?_
  rintro ⟨-, -, hx, -⟩
  have hx' : ∀ x : u8, x = 120 ∨ x = 88 → (t ++ rest)[1]? ≠ some x := by
    intro x hx hsecond
    rcases Nat.lt_or_ge 1 t.length with hlong | hshort
    · rw [List.getElem?_append_left hlong] at hsecond
      have hdigit := hw x (List.mem_of_getElem? hsecond)
      have hnone : hexDigit x = none := by rcases hx with rfl | rfl <;> decide
      rw [hnone] at hdigit
      cases hdigit
    · have hone : t.length = 1 := le_antisymm hshort (List.length_pos_iff.mpr hne)
      rw [List.getElem?_append_right hshort, hone, Nat.sub_self, ← List.head?_eq_getElem?] at hsecond
      obtain ⟨-, h120, h88⟩ := hrest x hsecond
      rcases hx with rfl | rfl
      · exact h120 rfl
      · exact h88 rfl
  exact hx.elim (hx' 120 (Or.inl rfl)) (hx' 88 (Or.inr rfl))

/-- **Hexadecimal digits are read** up to what is behind, and up to the greatest
`unsigned long long`. -/
theorem scanBase_digits_append {t : List u8} (hne : t ≠ []) (hw : ∀ c ∈ t, (hexDigit c).any (· < 16) = true)
    (hrest : EndsNumber rest) :
    Utils.scanBase 16 (t ++ rest) =
      some (UInt64.ofNat (min (value 16 (t.filterMap hexDigit)) (2 ^ 64 - 1))) := by
  obtain ⟨hsign, hds⟩ := scanSign_digits hne hw rest
  generalize hn : value 16 (t.filterMap hexDigit) = n
  unfold Utils.scanBase
  rw [hsign]
  dsimp only
  rw [scanPrefix_digits hne hw hrest, if_neg Bool.false_ne_true,
    scanDigits_append hw fun c hc => (hrest c hc).1, if_neg hds, hn]
  by_cases hbig : 2 ^ 64 ≤ n
  · rw [if_pos hbig, Nat.min_eq_right (by omega)]
    rfl
  · rw [if_neg hbig, if_neg Bool.false_ne_true, Nat.min_eq_left (by omega)]

theorem scanBase_digits {t : List u8} (hne : t ≠ []) (hw : ∀ c ∈ t, (hexDigit c).any (· < 16) = true) :
    Utils.scanBase 16 t =
      some (UInt64.ofNat (min (value 16 (t.filterMap hexDigit)) (2 ^ 64 - 1))) := by
  have happend := scanBase_digits_append hne hw endsNumber_nil
  rwa [List.append_nil] at happend

/-- **A number is read up to what is behind it.** -/
theorem scanBase_hexText (hw : 0 < w) (hrest : EndsNumber rest) :
    Utils.scanBase 16 (hexText w n ++ rest) = some n := by
  have hdigits : (hexText w n).filterMap hexDigit = padded w (digits 16 16 n.toNat) :=
    filterMap_digitChar fun d hd => lt_of_mem_padded (by decide) hd
  have hne : hexText w n ≠ [] := by
    unfold hexText
    rw [Ne, List.map_eq_nil_iff]
    exact padded_ne_nil hw
  have hn : n.toNat < 16 ^ 16 := n.toNat_lt
  have hvalue : value 16 (padded w (digits 16 16 n.toNat)) = n.toNat := value_padded hn
  have hmin : min n.toNat (2 ^ 64 - 1) = n.toNat := Nat.min_eq_left (by omega)
  rw [scanBase_digits_append hne (fun c hc => hexDigit_of_mem_hexText hc) hrest, hdigits, hvalue,
    hmin, UInt64.ofNat_toNat]

theorem of_mapM_hexDigit {t : List u8} {ds : List ℕ} (h : t.mapM hexDigit = some ds) :
    t.filterMap hexDigit = ds ∧ ds.length = t.length ∧
      ∀ c ∈ t, (hexDigit c).any (· < 16) = true := by
  induction t generalizing ds with
  | nil =>
    obtain rfl := Option.some.inj h
    exact ⟨rfl, rfl, nofun⟩
  | cons c t ih =>
    rw [List.mapM_cons, Option.bind_eq_bind, Option.bind_eq_some_iff] at h
    obtain ⟨d, hd, h⟩ := h
    rw [Option.bind_eq_bind, Option.bind_eq_some_iff] at h
    obtain ⟨es, hes, h⟩ := h
    obtain rfl := Option.some.inj h
    obtain ⟨hmap, hlen, hall⟩ := ih hes
    refine ⟨?_, congrArg (· + 1) hlen, fun x hx => ?_⟩
    · rw [List.filterMap_cons_some hd, hmap]
    · rcases List.mem_cons.mp hx with rfl | hx
      · rw [hd]
        exact decide_eq_true (hexDigit_lt hd)
      · exact hall x hx

/-- What is a number of `%llx` and nothing else is read by it. -/
theorem scanBase_hexValue {t : List u8} (h : hexValue t = some n) : Utils.scanBase 16 t = some n := by
  unfold hexValue at h
  split_ifs at h with hform
  obtain ⟨hne, hlen⟩ := not_or.mp hform
  obtain ⟨ds, hds, rfl⟩ := Option.map_eq_some_iff.mp h
  obtain ⟨hmap, hlength, hall⟩ := of_mapM_hexDigit hds
  have hlt : value 16 (t.filterMap hexDigit) < 2 ^ 64 := by
    have hdigit : ∀ d ∈ t.filterMap hexDigit, d < 16 := by
      intro d hd
      obtain ⟨c, -, hc⟩ := List.mem_filterMap.mp hd
      exact hexDigit_lt hc
    have hpow : (16 : ℕ) ^ t.length ≤ 16 ^ 16 := Nat.pow_le_pow_right (by decide) (by omega)
    have hvalue := value_lt_pow hdigit
    rw [hmap, hlength] at hvalue
    rw [hmap]
    omega
  rw [scanBase_digits hne hall, Nat.min_eq_left (by omega), hmap]

/-- A number with other characters behind it, and then blanks. -/
theorem getOffsetText_hex (nums : Numbers) (s : State) (n : ut64) (w b : ℕ) (rest : List u8)
    (hw : 0 < w)
    (hrest : ∀ c ∈ rest.head?, hexDigit c = none ∧ c ≠ 120 ∧ c ≠ 88)
    (hplain : ∀ c ∈ rest, c ≠ 32 ∧ c ≠ 91) :
    getOffsetText nums s ([48, 120] ++ hexText w n ++ rest ++ List.replicate b 32) =
      nums.named ([48, 120] ++ hexText w n ++ rest ++ List.replicate b 32) n := by
  have hchar : ∀ c ∈ [48, 120] ++ hexText w n ++ rest, c ≠ 32 ∧ c ≠ 91 := by
    intro c hc
    rcases List.mem_append.mp hc with hc | hc
    · have hdigit := of_mem_number hc
      constructor <;>
      · rintro rfl
        exact absurd hdigit (by decide)
    · exact hplain c hc
  have hword : ([48, 120] ++ hexText w n ++ rest ++ List.replicate b 32).takeWhile (· ≠ 32) =
      [48, 120] ++ hexText w n ++ rest :=
    takeWhile_blanks fun h => (hchar 32 h).1 rfl
  have hbracket : 91 ∉ [48, 120] ++ hexText w n ++ rest ++ List.replicate b 32 := by
    intro h
    rcases List.mem_append.mp h with h | h
    · exact (hchar 91 h).2 rfl
    · exact absurd (List.eq_of_mem_replicate h) (by decide)
  have hdrop : ([48, 120] ++ hexText w n ++ rest ++ List.replicate b 32).dropWhile (· = 32) =
      [48, 120] ++ hexText w n ++ rest ++ List.replicate b 32 := rfl
  have hscan : Utils.scanBase 16 (([48, 120] ++ hexText w n ++ rest).drop 2) = some n :=
    scanBase_hexText hw hrest
  have hne : ¬[48, 120] ++ hexText w n ++ rest ++ List.replicate b 32 = [] := List.cons_ne_nil _ _
  have hbegin : decide (([48, 120] ++ hexText w n ++ rest).take 2 = [48, 120]) = true :=
    decide_eq_true rfl
  unfold getOffsetText Numbers.named
  dsimp only
  rw [if_neg hne, hdrop, hword, hbegin, Bool.true_or, Bool.not_true,
    if_neg (by simpa using hbracket),
    if_pos rfl, hscan, Option.getD_some]

/-- A text that is one number. -/
theorem getMathText_one {t u : List u8} (ht : t ≠ []) (hu : squeeze t = u)
    (hplain : ∀ c ∈ u, c ∉ operators) : getMathText nums s t = getOffsetText nums s u := by
  have hplus : 43 ∉ u := fun h => hplain 43 h (by decide)
  have hhead : ¬(u.head? = some 43 ∨ u.any (fun c => c ≠ 43 ∧ operators.contains c) = true) := by
    rintro (h | h)
    · exact hplus (List.mem_of_mem_head? h)
    · obtain ⟨c, hc, hop⟩ := List.any_eq_true.mp h
      exact hplain c hc (List.contains_iff_mem.mp (of_decide_eq_true hop).2)
  unfold getMathText
  dsimp only
  rw [if_neg ht, hu, if_neg hhead, List.splitOn_eq_singleton hplus]
  exact UInt64.zero_add _

/-- A text that is two numbers, added. -/
theorem getMathText_two {t u v : List u8} (ht : t ≠ []) (hu : squeeze t = u ++ 43 :: v)
    (hne : u ≠ []) (hplain : ∀ c ∈ u, c ∉ operators)
    (hplain' : ∀ c ∈ v, c ∉ operators) :
    getMathText nums s t = getOffsetText nums s u + getOffsetText nums s v := by
  have hplus : 43 ∉ u := fun h => hplain 43 h (by decide)
  have hplus' : 43 ∉ v := fun h => hplain' 43 h (by decide)
  have hhead : ¬((u ++ 43 :: v).head? = some 43 ∨
      (u ++ 43 :: v).any (fun c => c ≠ 43 ∧ operators.contains c) = true) := by
    rintro (h | h)
    · rw [List.head?_append_of_ne_nil _ hne] at h
      exact hplus (List.mem_of_mem_head? h)
    · obtain ⟨c, hc, hop⟩ := List.any_eq_true.mp h
      obtain ⟨hc43, hop⟩ := of_decide_eq_true hop
      rcases List.mem_append.mp hc with hc | hc
      · exact hplain c hc (List.contains_iff_mem.mp hop)
      · exact hplain' c ((List.mem_cons.mp hc).resolve_left hc43) (List.contains_iff_mem.mp hop)
  unfold getMathText
  dsimp only
  rw [if_neg ht, hu, if_neg hhead, List.splitOn_append_cons_self_of_not_mem hplus,
    List.splitOn_eq_singleton hplus']
  exact congrArg (· + _) (UInt64.zero_add _)

/-! ## Arguments and addresses -/

theorem not_operator_of_digit (hc : 48 ≤ c ∧ c ≤ 57 ∨ 97 ≤ c ∧ c ≤ 122) : c ∉ operators := by
  have hops : ∀ c ∈ operators, ¬(48 ≤ c ∧ c ≤ 57 ∨ 97 ≤ c ∧ c ≤ 122) := by decide +kernel
  exact fun h => hops c h hc

/-- **An argument is read** as it was where no label was looked for. -/
theorem getMathText_argument : getMathText nums s (32 :: (hexWord n ++ [32])) = nums.read 1 n := by
  have hsqueeze : squeeze (hexWord n ++ List.replicate 1 32) = hexWord n ++ List.replicate 1 32 :=
    squeeze_hexWord (Nat.le_refl 1)
  have hplain : ∀ c ∈ hexWord n ++ List.replicate 1 32, c ∉ operators := by
    intro c hc
    rcases List.mem_append.mp hc with hc | hc
    · exact not_operator_of_digit (of_mem_hexWord hc)
    · rw [List.eq_of_mem_replicate hc]
      decide
  -- the blank in front goes with the first step of the loop
  have hone : getMathText nums s (32 :: (hexWord n ++ [32])) =
      getOffsetText nums s (hexWord n ++ List.replicate 1 32) :=
    getMathText_one (List.cons_ne_nil _ _) hsqueeze hplain
  have hread := getOffsetText_hex nums s n 8 1 [] (by decide)
    (fun c hc => by cases hc) (fun c hc => by cases hc)
  rw [List.append_nil] at hread
  exact hone.trans hread

theorem solid_of_digit (hc : 48 ≤ c ∧ c ≤ 57 ∨ 97 ≤ c ∧ c ≤ 122) : c ≠ 32 ∧ c ≠ 33 ∧ c ≠ 61 := by
  refine ⟨?_, ?_, ?_⟩ <;>
  · rintro rfl
    exact absurd hc (by decide)

theorem squeeze_front {t : List u8} (rest : List u8) (ht : ∀ c ∈ t, c ≠ 32 ∧ c ≠ 33 ∧ c ≠ 61) :
    squeeze (t ++ rest) = t ++ squeeze rest := by
  induction t with
  | nil => rfl
  | cons c t ih =>
    obtain ⟨h32, h33, h61⟩ := ht c List.mem_cons_self
    rw [List.cons_append, squeeze, ih fun d hd => ht d (List.mem_cons_of_mem _ hd), List.cons_append]
    all_goals
      intros
      contradiction

theorem squeeze_self {t : List u8} (ht : ∀ c ∈ t, c ≠ 32 ∧ c ≠ 33 ∧ c ≠ 61) : squeeze t = t := by
  have h := squeeze_front [] ht
  rwa [List.append_nil, squeeze, List.append_nil] at h

/-- What is behind an `@`, once the blanks at the end of the line are gone. -/
def addressText (n : ut64) (l : Label) : List u8 :=
  hexWord n ++ [32, 59] ++ if l.text = [] then [] else 32 :: l.text

theorem of_mem_deltaText {d : ut64} (hc : c ∈ deltaText d) : 48 ≤ c ∧ c ≤ 57 ∨ 97 ≤ c ∧ c ≤ 122 :=
  of_mem_number hc

/-- A character of a label is one of its name, the sign, or one of the
distance. -/
theorem Label.mem_text {l : Label} {c : u8} (hc : c ∈ l.text) :
    c ∈ l.name ∨ c = 43 ∨ (48 ≤ c ∧ c ≤ 57 ∨ 97 ≤ c ∧ c ≤ 122) := by
  rcases List.mem_append.mp hc with hc | hc
  · exact Or.inl hc
  · cases hd : l.delta with
    | none =>
      rw [hd] at hc
      cases hc
    | some d =>
      rw [hd] at hc
      exact Or.inr ((List.mem_cons.mp hc).imp_right of_mem_deltaText)

/-- The characters of a plain name. -/
theorem Label.Plain.name {l : Label} (h : l.Plain) (hc : c ∈ l.name) :
    c ∉ flagBadChars ∧ c ∉ [38, 58, 92, 124, 126] ∧ 33 ≤ c ∧ c ≤ 126 := by
  obtain ⟨hvalid, hbad⟩ := h c hc
  unfold flagIsValidChar at hvalid
  split_ifs at hvalid with hflag hdigit
  · refine ⟨hflag, hbad, ?_⟩
    exact ⟨UInt8.le_trans (by decide) hdigit.1, UInt8.le_trans hdigit.2 (by decide)⟩
  · refine ⟨hflag, hbad, ?_⟩
    obtain ⟨hle, hge⟩ := of_decide_eq_true hvalid
    have hblank : c ≠ 32 := by
      rintro rfl
      exact hflag (by decide)
    exact ⟨by grind, hge⟩

theorem Label.Plain.not_blank {l : Label} (h : l.Plain) (hc : c ∈ 59 :: l.name) : c ≠ 32 ∧ c ≠ 91 := by
  rcases List.mem_cons.mp hc with rfl | hc
  · decide
  · have hflag := (h.name hc).1
    constructor <;>
    · rintro rfl
      exact hflag (by decide)

theorem Label.Plain.not_operator {l : Label} (h : l.Plain) (hc : c ∈ hexWord n ++ 59 :: l.name) :
    c ∉ operators := by
  rcases List.mem_append.mp hc with hc | hc
  · exact not_operator_of_digit (of_mem_hexWord hc)
  · rcases List.mem_cons.mp hc with rfl | hc
    · decide
    · obtain ⟨hflag, hbad, -⟩ := h.name hc
      have hops : ∀ c ∈ operators, c ∈ flagBadChars ∨ c = 92 := by decide +kernel
      intro hop
      rcases hops c hop with hin | rfl
      · exact hflag hin
      · exact hbad (by decide)

theorem squeeze_addressText {l : Label} (h : l.Plain) :
    squeeze (addressText n l) = hexWord n ++ 59 :: l.text := by
  have hword : ∀ c ∈ hexWord n, c ≠ 32 ∧ c ≠ 33 ∧ c ≠ 61 := fun c hc =>
    solid_of_digit (of_mem_hexWord hc)
  have htext : ∀ c ∈ l.text, c ≠ 32 ∧ c ≠ 33 ∧ c ≠ 61 := by
    intro c hc
    rcases Label.mem_text hc with hc | rfl | hdigit
    · have hflag := (h.name hc).1
      refine ⟨?_, ?_, ?_⟩ <;>
      · rintro rfl
        exact hflag (by decide)
    · decide
    · exact solid_of_digit hdigit
  unfold addressText
  rw [List.append_assoc, squeeze_front _ hword]
  refine congrArg (hexWord n ++ ·) ?_
  by_cases hnil : l.text = []
  · rw [if_pos hnil, hnil]
    rfl
  · rw [if_neg hnil]
    obtain ⟨c, t, hct⟩ := List.exists_cons_of_ne_nil hnil
    rw [hct] at htext ⊢
    -- the blanks go, and what is behind each of them is passed over
    have hrest : squeeze ([32, 59] ++ 32 :: c :: t) = 59 :: c :: squeeze t := rfl
    rw [hrest, squeeze_self fun d hd => htext d (List.mem_cons_of_mem _ hd)]

/-- **An address is read with its label**, whose distance is added to it. -/
theorem getMathText_address {l : Label} (h : l.Plain) :
    getMathText nums s (addressText n l) = nums.address n l := by
  have hread : getOffsetText nums s (hexWord n ++ 59 :: l.name) =
      nums.named (hexWord n ++ 59 :: l.name) n := by
    have hhex := getOffsetText_hex nums s n 8 0 (59 :: l.name) (by decide)
      (fun c hc => by cases hc; decide) fun c hc => h.not_blank hc
    rw [List.replicate_zero, List.append_nil] at hhex
    exact hhex
  have hplain : ∀ c ∈ hexWord n ++ 59 :: l.name, c ∉ operators := fun c hc => h.not_operator hc
  have hne : addressText n l ≠ [] := List.cons_ne_nil _ _
  have hword : hexWord n ++ 59 :: l.name ≠ [] := List.cons_ne_nil _ _
  have hsqueeze : squeeze (addressText n l) = hexWord n ++ 59 :: l.text := squeeze_addressText h
  unfold Numbers.address
  unfold Label.text at hsqueeze
  cases hdelta : l.delta with
  | none =>
    rw [hdelta, List.append_nil] at hsqueeze
    rw [getMathText_one hne hsqueeze hplain, hread]
    exact (UInt64.add_zero _).symm
  | some d =>
    have hassoc : hexWord n ++ 59 :: (l.name ++ 43 :: deltaText d) =
        (hexWord n ++ 59 :: l.name) ++ 43 :: deltaText d := by simp
    rw [hdelta] at hsqueeze
    have hhex := getOffsetText_hex nums s d 1 0 [] (by decide)
      (fun c hc => by cases hc) (fun c hc => by cases hc)
    rw [List.replicate_zero, List.append_nil, List.append_nil] at hhex
    rw [getMathText_two hne (hsqueeze.trans hassoc) hword hplain
      (fun c hc => not_operator_of_digit (of_mem_deltaText hc)), hread]
    exact congrArg (nums.named (hexWord n ++ 59 :: l.name) n + ·) hhex

/-! ## Lengths -/

theorem longText_of_lt (hn : n < 2 ^ 63) :
    longText n = (padded 0 (digits 10 20 n.toNat)).map digitChar := by
  rw [longText, if_pos hn]
  rfl

/-- The characters of a number that is not negative. -/
theorem of_mem_longText (hn : n < 2 ^ 63) (hc : c ∈ longText n) : 48 ≤ c ∧ c ≤ 57 := by
  rw [longText, if_pos hn] at hc
  exact of_mem_decText hc

theorem longText_ne_nil (hn : n < 2 ^ 63) : longText n ≠ [] := by
  rw [longText_of_lt hn, Ne, List.map_eq_nil_iff, padded, List.append_eq_nil_iff, not_and]
  intro _
  unfold digits
  split_ifs <;> simp

theorem hexDigit_of_mem_longText (hn : n < 2 ^ 63) (hc : c ∈ longText n) :
    (hexDigit c).any (· < 10) = true := by
  rw [longText_of_lt hn] at hc
  obtain ⟨d, hd, rfl⟩ := List.mem_map.mp hc
  have hlt : d < 10 := lt_of_mem_padded (by decide) hd
  rw [hexDigit_digitChar (by omega)]
  exact decide_eq_true hlt

theorem ofInt_toNat (n : ut64) : UInt64.ofInt n.toNat = n := by
  have hlt : n.toNat < 2 ^ 64 := n.toNat_lt
  have hmod : (n.toNat : ℤ) % 2 ^ 64 = n.toNat := Int.emod_eq_of_lt (by omega) (by omega)
  unfold UInt64.ofInt
  rw [hmod, Int.toNat_natCast, UInt64.ofNat_toNat]

/-- **A length is read back.** -/
theorem scanDec_longText (hn : n < 2 ^ 63) : Utils.scanDec (longText n) = some n := by
  obtain ⟨c, t, hct⟩ := List.exists_cons_of_ne_nil (longText_ne_nil hn)
  have hc : (hexDigit c).isSome :=
    Option.isSome_of_any (hexDigit_of_mem_longText hn (by rw [hct]; exact List.mem_cons_self))
  have hsign : Utils.scanSign (Utils.skipSpace (longText n)) = (false, longText n) := by
    rw [hct]
    exact scanSign_digit hc
  have hdigits : ∀ d ∈ padded 0 (digits 10 20 n.toNat), d < 16 := fun d hd =>
    (lt_of_mem_padded (by decide) hd).trans (by decide)
  have hscan : Utils.scanDigits 10 (longText n) = padded 0 (digits 10 20 n.toNat) := by
    have happend : Utils.scanDigits 10 (longText n ++ []) = (longText n).filterMap hexDigit :=
      scanDigits_append (fun c hc => hexDigit_of_mem_longText hn hc) (fun c hc => by cases hc)
    rw [List.append_nil] at happend
    rw [happend, longText_of_lt hn, filterMap_digitChar hdigits]
  have hbound : ((2 : ut64) ^ 63).toNat = 2 ^ 63 := by decide +kernel
  have hlt : n.toNat < 2 ^ 63 := by
    rw [UInt64.lt_iff_toNat_lt, hbound] at hn
    exact hn
  have hvalue : value 10 (padded 0 (digits 10 20 n.toNat)) = n.toNat := value_padded (by omega)
  have hne : padded 0 (digits 10 20 n.toNat) ≠ [] := by
    intro hnil
    rw [hnil] at hvalue
    refine longText_ne_nil hn ?_
    rw [longText_of_lt hn, hnil]
    rfl
  have hclamp : max (-2 ^ 63) (min (n.toNat : ℤ) (2 ^ 63 - 1)) = n.toNat := by omega
  unfold Utils.scanDec
  rw [hsign]
  dsimp only
  rw [hscan, if_neg hne, hvalue, if_neg Bool.false_ne_true, hclamp, ofInt_toNat]

theorem dropWhile_length (hn : n < 2 ^ 63) :
    (longText n ++ [32]).dropWhile (· = 32) = longText n ++ [32] := by
  obtain ⟨c, t, hct⟩ := List.exists_cons_of_ne_nil (longText_ne_nil hn)
  have hc : c ≠ 32 := by
    rintro rfl
    exact absurd (of_mem_longText hn (hct ▸ List.mem_cons_self)) (by decide)
  rw [hct]
  exact List.dropWhile_cons_of_neg fun h => hc (of_decide_eq_true h)

theorem takeWhile_length (hn : n < 2 ^ 63) : (longText n ++ [32]).takeWhile (· ≠ 32) = longText n :=
  takeWhile_ne_cons fun h => absurd (of_mem_longText hn h) (by decide)

theorem bracket_not_mem_length (hn : n < 2 ^ 63) : 91 ∉ longText n ++ [32] := by
  intro h
  rcases List.mem_append.mp h with h | h
  · exact absurd (of_mem_longText hn h) (by decide)
  · exact absurd (List.mem_singleton.mp h) (by decide)

theorem squeeze_length (hn : n < 2 ^ 63) : squeeze (longText n ++ [32]) = longText n ++ [32] :=
  squeeze_front [32] fun _ hc => solid_of_digit (Or.inl (of_mem_longText hn hc))

/-- **The length of an item is read.** -/
theorem getMathText_length (hn : n < 2 ^ 63) :
    getMathText nums s (longText n ++ [32]) = nums.named (longText n ++ [32]) n := by
  have hchar : ∀ c ∈ longText n, 48 ≤ c ∧ c ≤ 57 := fun c hc => of_mem_longText hn hc
  have hplain : ∀ c ∈ longText n ++ [32], c ∉ operators := by
    intro c hc
    rcases List.mem_append.mp hc with hc | hc
    · exact not_operator_of_digit (Or.inl (hchar c hc))
    · rw [List.mem_singleton.mp hc]
      decide
  have hne : longText n ++ [32] ≠ [] := List.append_ne_nil_of_right_ne_nil _ (List.cons_ne_nil _ _)
  have hhex : decide ((longText n).take 2 = [48, 120]) = false := by
    refine decide_eq_false fun h => ?_
    have hx : 120 ∈ longText n := by
      refine List.mem_of_mem_take (i := 2) ?_
      rw [h]
      decide
    exact absurd (hchar _ hx) (by decide)
  have hdec : decide (longText n ≠ [] ∧ ∀ c ∈ longText n, 48 ≤ c ∧ c ≤ 57) = true :=
    decide_eq_true ⟨longText_ne_nil hn, hchar⟩
  rw [getMathText_one hne (squeeze_length hn) hplain]
  unfold getOffsetText Numbers.named
  dsimp only
  rw [if_neg hne, dropWhile_length hn, takeWhile_length hn, hhex, hdec, Bool.false_or, Bool.not_true,
    if_neg (by simpa using bracket_not_mem_length hn), if_neg Bool.false_ne_true, scanDec_longText hn,
    Option.getD_some]

end Radare
