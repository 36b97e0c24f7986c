import Mathlib.Data.List.Infix
import Radare.Rio.HexPairs
import Radare.Search.Keyword
/-!
# What the keyword of `/x` means

The text of a keyword has two characters of its own, the backslash and the
opening bracket, and `/x` writes them as they are. A byte that is neither
means itself, but for a capital letter while the case is ignored. When all
of them do is `keyword_means_bytes_iff`.
-/

namespace Radare

open Common

/-- Two hexadecimal digits. -/
structure HexPair where
  hi : u8
  lo : u8
  hi_digit : (hexDigit hi).isSome
  lo_digit : (hexDigit lo).isSome

/-- The byte that they are. -/
def HexPair.byte (p : HexPair) : u8 :=
  UInt8.ofNat ((hexDigit p.hi).get p.hi_digit * 16 + (hexDigit p.lo).get p.lo_digit)

/-- Bytes in hexadecimal, with or without a blank in front of each but the
first. -/
structure HexText where
  first : HexPair
  rest : List (Bool × HexPair)

/-- The bytes. -/
def HexText.bytes (t : HexText) : List u8 := t.first.byte :: t.rest.map (·.2.byte)

/-- The rest of the text. -/
def hexRest : List (Bool × HexPair) → List u8
  | [] => []
  | (blank, p) :: ps => (if blank then [32] else []) ++ p.hi :: p.lo :: hexRest ps

/-- The command. -/
def HexText.command (t : HexText) : List u8 :=
  120 :: 32 :: t.first.hi :: t.first.lo :: hexRest t.rest

/-- A character that a keyword takes for itself. -/
def IsPlain (c : u8) : Prop := c ≠ 92 ∧ c ≠ 91

instance : DecidablePred IsPlain := fun c => inferInstanceAs (Decidable (c ≠ 92 ∧ c ≠ 91))

/-- The token of a byte. -/
def byteToken (c : u8) : u8 × u8 := (c, 0)

variable {env : TokEnv} {nocase : Bool} {str w pre rest cs ds : List u8} {s : TokState}
variable {b c : u8} {i : ℕ}

/-! ## The bytes are read -/

/-- **Two digits are the byte.** -/
theorem hexpair2bin_pair (p : HexPair) (rest : List u8) :
    hexpair2bin (p.hi :: p.lo :: rest) = some p.byte := by
  obtain ⟨hi, lo, hhi, hlo⟩ := p
  obtain ⟨a, ha⟩ := Option.isSome_iff_exists.mp hhi
  obtain ⟨d, hd⟩ := Option.isSome_iff_exists.mp hlo
  have hstop : ∀ c : u8, hexpairLoop rest c 2 = some c := by
    intro c
    cases rest with
    | nil => rfl
    | cons e rest => rw [hexpairLoop, if_pos (Or.inr rfl)]
  have hfst := upper_digit (hexDigit_lt ha)
  have hsnd := lower_digit (hexDigit_lt ha) (hexDigit_lt hd)
  unfold hexpair2bin HexPair.byte
  rw [if_neg (by simp), hexpairLoop, if_neg (by simp [ne_blank hhi])]
  rw [hex2int_of_digit ha]
  simp only [ha, hd, Option.get_some, Option.bind_eq_bind, Option.bind_some]
  rw [if_pos trivial, hfst, hexpairLoop, if_neg (by simp [ne_blank hlo])]
  rw [hex2int_of_digit hd]
  simp only [Option.bind_eq_bind, Option.bind_some]
  rw [hsnd, if_neg (by decide)]
  exact hstop _

/-- A turn of the loop of `/x`. -/
theorem keyLoop_pair {p : HexPair} {text key : List u8} {fuel : ℕ}
    (hrest : keyLoop fuel
      (if 2 < text.length ∧ text.head? = some 32 then text.tail else text) = some key) :
    keyLoop (fuel + 1) (p.hi :: p.lo :: text) = some (keyByte p.byte ++ key) := by
  have hdrop : (p.hi :: p.lo :: text).drop
      (if 4 < (p.hi :: p.lo :: text).length ∧ (p.hi :: p.lo :: text)[2]? = some 32 then 3 else 2) =
      if 2 < text.length ∧ text.head? = some 32 then text.tail else text := by
    have hlen : 4 < (p.hi :: p.lo :: text).length ↔ 2 < text.length := by
      rw [List.length_cons, List.length_cons]
      omega
    have hget : (p.hi :: p.lo :: text)[2]? = text.head? := by
      rw [List.getElem?_cons_succ, List.getElem?_cons_succ, List.head?_eq_getElem?]
    simp only [hlen, hget]
    split_ifs
    · exact List.drop_one
    · rfl
  rw [keyLoop, if_neg (List.cons_ne_nil _ _), hexpair2bin_pair]
  simp only [Option.bind_eq_bind, Option.bind_some]
  rw [hdrop, hrest, Option.bind_some]

/-- The loop of `/x` makes its text of the bytes. -/
theorem keyLoop_pairs {p : HexPair} {ps : List (Bool × HexPair)} {fuel : ℕ}
    (hfuel : ps.length + 1 < fuel) :
    keyLoop fuel (p.hi :: p.lo :: hexRest ps) =
      some ((p.byte :: ps.map (·.2.byte)).flatMap keyByte) := by
  induction ps generalizing p fuel with
  | nil =>
    obtain ⟨fuel, rfl⟩ : ∃ n, fuel = n + 2 := ⟨fuel - 2, by rw [List.length_nil] at hfuel; omega⟩
    rw [List.map_nil, List.flatMap_cons, List.flatMap_nil]
    exact keyLoop_pair rfl
  | cons bp ps ih =>
    obtain ⟨blank, q⟩ := bp
    obtain ⟨fuel, rfl⟩ : ∃ n, fuel = n + 1 := ⟨fuel - 1, by omega⟩
    rw [List.length_cons] at hfuel
    rw [List.map_cons, List.flatMap_cons]
    refine keyLoop_pair ?_
    have htext : (if 2 < (hexRest ((blank, q) :: ps)).length ∧
        (hexRest ((blank, q) :: ps)).head? = some 32 then (hexRest ((blank, q) :: ps)).tail
        else hexRest ((blank, q) :: ps)) = q.hi :: q.lo :: hexRest ps := by
      rw [hexRest]
      cases blank with
      | true => exact if_pos ⟨by simp, rfl⟩
      | false => exact if_neg fun h => ne_blank q.hi_digit (Option.some.inj h.2)
    rw [htext]
    exact ih (by omega)

theorem length_hexRest (ps : List (Bool × HexPair)) : ps.length ≤ (hexRest ps).length := by
  induction ps with
  | nil => exact le_rfl
  | cons bp ps ih =>
    rw [hexRest, List.length_append, List.length_cons, List.length_cons, List.length_cons]
    omega

/-- **`/x` makes its keyword of the bytes.** -/
theorem radareSearchX_eq (t : HexText) : radareSearchX t.command = some (t.bytes.flatMap keyByte) := by
  have hlen := length_hexRest t.rest
  unfold radareSearchX
  rw [show t.command.drop 2 = t.first.hi :: t.first.lo :: hexRest t.rest from rfl]
  dsimp only
  rw [if_neg (by simp)]
  refine keyLoop_pairs ?_
  rw [List.length_cons, List.length_cons]
  omega

/-! ## One turn of `tok_parse` -/

theorem tokLoop_append :
    tokLoop env nocase str i (cs ++ ds) s =
      tokLoop env nocase str (i + cs.length) ds (tokLoop env nocase str i cs s) := by
  induction cs generalizing i s with
  | nil => rfl
  | cons c cs ih =>
    rw [List.cons_append, tokLoop, ih, tokLoop, List.length_cons, Nat.add_right_comm, Nat.add_assoc]

@[simp] theorem tlist_tokSwitch : (tokSwitch i c s).tlist = s.tlist := by
  unfold tokSwitch
  split_ifs <;> rfl

/-- A turn adds a token at most. -/
theorem tlist_tokTurn :
    (tokTurn env nocase str i c s).tlist = s.tlist ∨
      ∃ t, (tokTurn env nocase str i c s).tlist = s.tlist ++ [t] := by
  unfold tokTurn tokEmit TokState.add
  dsimp only
  split_ifs
  all_goals first
    | exact Or.inl tlist_tokSwitch
    | exact Or.inr ⟨_, congrArg (· ++ _) tlist_tokSwitch⟩

/-- Only a backslash leaves the number 1. -/
theorem eq_of_estat_one (h : (tokTurn env nocase str i c s).estat = 1) : c = 92 := by
  by_contra hc
  have hswitch : (tokSwitch i c s).estat ≠ 1 := by
    unfold tokSwitch
    rw [if_neg hc]
    split_ifs
    all_goals first
      | omega
      | (dsimp only; omega)
  unfold tokTurn tokEmit TokState.add at h
  dsimp only at h
  split_ifs at h
  all_goals first
    | omega
    | (dsimp only at h; omega)

theorem tlist_prefix : s.tlist <+: (tokLoop env nocase str i cs s).tlist := by
  induction cs generalizing i s with
  | nil => exact List.prefix_rfl
  | cons c cs ih =>
    have hturn : (tokTurn env nocase str i c s).tlist = s.tlist ∨
        ∃ t, (tokTurn env nocase str i c s).tlist = s.tlist ++ [t] := tlist_tokTurn
    refine List.IsPrefix.trans ?_ ih
    rcases hturn with hsame | ⟨t, hadd⟩
    · rw [hsame]
    · rw [hadd]
      exact List.prefix_append _ _

/-! ## A byte -/

/-- A digit of `\x%02x`. -/
theorem hexText_byte (b : u8) : ∃ h l x y, hexText 2 b.toUInt64 = [h, l] ∧
    hexDigit h = some x ∧ hexDigit l = some y ∧ UInt8.ofNat (x * 16 + y) = b ∧
    tolower h = h ∧ tolower l = l := by
  have hlower : ∀ x : Fin 16, tolower (digitChar x) = digitChar x := by decide
  have hlt := b.toNat_lt
  refine ⟨_, _, b.toNat / 16, b.toNat % 16, hexText_two b, hexDigit_digitChar (by omega),
    hexDigit_digitChar (by omega), ?_, hlower ⟨b.toNat / 16, by omega⟩,
    hlower ⟨b.toNat % 16, by omega⟩⟩
  rw [Nat.div_add_mod', UInt8.ofNat_toNat]

/-- A backslash where none is open. -/
theorem tokTurn_backslash (h : s.estat ≠ 1 ∧ (s.estat < 10 ∨ s.estat > 22)) :
    tokTurn env nocase str i 92 s = { s with estat := 1 } := by
  unfold tokTurn tokSwitch
  rw [if_pos rfl, if_pos h]
  rfl

/-- A character behind a backslash. -/
theorem tokTurn_escaped (h : s.estat = 1) (hc : c ≠ 120) :
    tokTurn env nocase str i c s = s.add (if nocase then tolower c else c) 0 := by
  have hswitch : tokSwitch i c s = { s with estat := 2 } := by
    unfold tokSwitch
    rw [h]
    split_ifs with h₁ h₂ h₃ h₄ h₅
    · exact absurd rfl h₂.1
    · rfl
    · exact absurd rfl h₄.1
    · rfl
    · rfl
    · exact absurd Nat.one_ne_zero h₅
  unfold tokTurn
  rw [hswitch]
  exact if_neg hc

theorem tokTurn_x (h : s.estat = 1) : tokTurn env nocase str i 120 s = { s with estat := 2 } := by
  unfold tokTurn tokSwitch
  rw [if_neg (by decide), if_neg (by decide), if_pos (by omega), h]
  rfl

theorem tokTurn_first (h : s.estat = 2) (hc : IsPlain c) :
    tokTurn env nocase str i c s = { s with estat := 3, straux := c } := by
  unfold tokTurn tokSwitch
  rw [if_neg hc.1, if_neg hc.2, if_pos (by omega), h]
  rfl

theorem tokTurn_second (h : s.estat = 3) (hc : IsPlain c) :
    tokTurn env nocase str i c s = s.add (env.tokaux i [48, 120, s.straux, c]) 0 := by
  unfold tokTurn tokSwitch
  rw [if_neg hc.1, if_neg hc.2, if_pos (by omega), h]
  rfl

/-- A character outside of everything. -/
theorem tokTurn_plain (h : s.estat = 0) (hc : IsPlain c) :
    tokTurn env nocase str i c s = s.add (if nocase then tolower c else c) 0 := by
  unfold tokTurn tokSwitch
  rw [if_neg hc.1, if_neg hc.2, if_neg (by omega)]
  exact if_pos h

/-- A bracket outside of everything opens a class. -/
theorem tokTurn_open (h : s.estat = 0) :
    tokTurn env nocase str i 91 s = { s with estat := 10, rangemin := i + 1 } := by
  unfold tokTurn tokSwitch
  rw [if_neg (by decide), if_pos rfl, if_pos (by omega)]
  rfl

/-- A character that brackets take in. -/
theorem tokTurn_inside (h : 10 ≤ s.estat) (hopen : c ≠ 91) (hclose : c ≠ 93)
    (hslash : c = 92 → s.estat ≤ 22) :
    tokTurn env nocase str i c s = { s with estat := s.estat + 1 } := by
  have hswitch : tokSwitch i c s = { s with estat := s.estat + 1 } := by
    unfold tokSwitch
    split_ifs with h₁ h₂ h₃
    · have := hslash h₁
      omega
    · rfl
    · rfl
    · omega
  unfold tokTurn
  rw [hswitch]
  unfold tokEmit
  dsimp only
  rw [if_neg (by omega), if_neg (by omega), if_neg (by omega), if_neg (by omega), if_neg hclose,
    ite_self]

/-- What a digit is not. -/
theorem plain_of_digit (h : (hexDigit c).isSome) : IsPlain c ∧ c ≠ 93 ∧ c ≠ 120 := by
  refine ⟨⟨?_, ?_⟩, ?_, ?_⟩
  all_goals
    rintro rfl
    exact absurd h (by decide)

/-- **A byte that is not printed** is one token, outside of everything. -/
theorem tokLoop_escape_plain (hb : isPrintable b = false) (h : s.estat = 0) :
    (tokLoop env nocase str i (keyByte b) s).estat = 0 ∧
      (tokLoop env nocase str i (keyByte b) s).tlist = s.tlist ++ [byteToken b] := by
  obtain ⟨hi, lo, x, y, htext, hx, hy, hbyte, -, -⟩ := hexText_byte b
  have hhi := (plain_of_digit (c := hi) (by rw [hx]; rfl)).1
  have hlo := (plain_of_digit (c := lo) (by rw [hy]; rfl)).1
  unfold keyByte
  rw [hb, if_neg Bool.false_ne_true, htext]
  rw [tokLoop, tokTurn_backslash (by omega), tokLoop, tokTurn_x rfl, tokLoop, tokTurn_first rfl hhi,
    tokLoop, tokTurn_second rfl hlo, tokLoop, env.hex _ _ _ _ _ hx hy, hbyte]
  exact ⟨rfl, rfl⟩

/-- **Behind a backslash** it is four tokens: the backslash, the `x` and the
digits. -/
theorem tokLoop_escape_slash (hb : isPrintable b = false) (h : s.estat = 1) :
    (tokLoop env nocase str i (keyByte b) s).estat = 0 ∧
      ∃ hi lo, (hexDigit hi).isSome ∧ (hexDigit lo).isSome ∧
        (tokLoop env nocase str i (keyByte b) s).tlist =
          s.tlist ++ [byteToken 92, byteToken 120, byteToken hi, byteToken lo] := by
  obtain ⟨hi, lo, x, y, htext, hx, hy, -, hhilow, hlolow⟩ := hexText_byte b
  have hhi := (plain_of_digit (c := hi) (by rw [hx]; rfl)).1
  have hlo := (plain_of_digit (c := lo) (by rw [hy]; rfl)).1
  have hsame : ∀ c, tolower c = c → (if nocase = true then tolower c else c) = c := by
    intro c hc
    rw [hc, ite_self]
  unfold keyByte
  rw [hb, if_neg Bool.false_ne_true, htext]
  rw [tokLoop, tokTurn_escaped h (by decide), hsame 92 (by decide), tokLoop,
    tokTurn_plain rfl ⟨by decide, by decide⟩, hsame 120 (by decide), tokLoop, tokTurn_plain rfl hhi,
    hsame hi hhilow, tokLoop, tokTurn_plain rfl hlo, hsame lo hlolow, tokLoop]
  refine ⟨rfl, hi, lo, by rw [hx]; rfl, by rw [hy]; rfl, ?_⟩
  unfold TokState.add byteToken
  simp only [List.append_assoc, List.cons_append, List.nil_append]

/-- **Anywhere else** it is one token at most. -/
theorem tokLoop_escape_other (hb : isPrintable b = false) (h : s.estat ≠ 1) :
    (tokLoop env nocase str i (keyByte b) s).estat ≠ 1 ∧
      (tokLoop env nocase str i (keyByte b) s).tlist.length ≤ s.tlist.length + 1 := by
  obtain ⟨hi, lo, x, y, htext, hx, hy, -, -, -⟩ := hexText_byte b
  obtain ⟨hhi, hhi93, -⟩ := plain_of_digit (c := hi) (by rw [hx]; rfl)
  obtain ⟨hlo, hlo93, -⟩ := plain_of_digit (c := lo) (by rw [hy]; rfl)
  unfold keyByte
  rw [hb, if_neg Bool.false_ne_true, htext]
  by_cases hrange : s.estat < 10 ∨ s.estat > 22
  · rw [tokLoop, tokTurn_backslash ⟨h, hrange⟩, tokLoop, tokTurn_x rfl, tokLoop,
      tokTurn_first rfl hhi, tokLoop, tokTurn_second rfl hlo, tokLoop]
    unfold TokState.add
    dsimp only
    exact ⟨Nat.zero_ne_one, by rw [List.length_append, List.length_singleton]⟩
  · rw [tokLoop, tokTurn_inside (by omega) (by decide) (by decide) fun _ => by omega, tokLoop,
      tokTurn_inside (by dsimp only; omega) (by decide) (by decide) fun h => absurd h (by decide),
      tokLoop, tokTurn_inside (by dsimp only; omega) hhi.2 hhi93 fun h => absurd h hhi.1,
      tokLoop, tokTurn_inside (by dsimp only; omega) hlo.2 hlo93 fun h => absurd h hlo.1, tokLoop]
    dsimp only
    exact ⟨by omega, Nat.le_succ _⟩

/-! ## Bytes that mean themselves -/

theorem tolower_eq_iff : tolower c = c ↔ ¬(65 ≤ c ∧ c ≤ 90) := by
  unfold tolower
  split_ifs with hupper
  · refine iff_of_false (fun h => ?_) (not_not_intro hupper)
    have := congrArg UInt8.toNat h
    rw [UInt8.toNat_add] at this
    have h90 := UInt8.le_iff_toNat_le.mp hupper.2
    have hthis : (90 : u8).toNat = 90 := rfl
    have hthat : (32 : u8).toNat = 32 := rfl
    omega
  · exact iff_of_true rfl hupper

theorem tolower_of_not_printable (h : isPrintable c = false) : tolower c = c := by
  refine tolower_eq_iff.mpr fun hupper => ?_
  have hprintable : isPrintable c = true := by
    refine decide_eq_true ⟨?_, ?_⟩
    · exact UInt8.le_trans (by decide) hupper.1
    · exact UInt8.le_trans hupper.2 (by decide)
  exact Bool.false_ne_true (h.symm.trans hprintable)

/-- **Plain bytes** are a token each. -/
theorem tokLoop_plain (hw : ∀ c ∈ w, IsPlain c) (h : s.estat = 0) :
    (tokLoop env nocase str i (w.flatMap keyByte) s).estat = 0 ∧
      (tokLoop env nocase str i (w.flatMap keyByte) s).tlist =
        s.tlist ++ w.map fun c => byteToken (if nocase then tolower c else c) := by
  induction w generalizing i s with
  | nil => exact ⟨h, (List.append_nil _).symm⟩
  | cons b w ih =>
    have hb := hw b List.mem_cons_self
    have hbyte : (tokLoop env nocase str i (keyByte b) s).estat = 0 ∧
        (tokLoop env nocase str i (keyByte b) s).tlist =
          s.tlist ++ [byteToken (if nocase then tolower b else b)] := by
      cases hprint : isPrintable b with
      | true =>
        unfold keyByte
        rw [hprint, if_pos rfl, tokLoop, tokTurn_plain h hb, tokLoop]
        exact ⟨rfl, rfl⟩
      | false =>
        rw [tolower_of_not_printable hprint, ite_self]
        exact tokLoop_escape_plain hprint h
    rw [List.flatMap_cons, tokLoop_append]
    obtain ⟨hestat, htlist⟩ := ih (i := i + (keyByte b).length)
      (fun c hc => hw c (List.mem_cons_of_mem _ hc)) hbyte.1
    refine ⟨hestat, ?_⟩
    rw [htlist, hbyte.2, List.append_assoc, List.singleton_append, List.map_cons]

/-! ## Bytes that do not -/

/-- The token at an index is the byte there. -/
theorem getElem?_of_prefix {tlist ts : List (u8 × u8)} {j : ℕ} {t : u8}
    (h : tlist ++ ts <+: w.map byteToken) (ht : ts[j]? = some (byteToken t)) :
    w[tlist.length + j]? = some t := by
  obtain ⟨rest, hrest⟩ := h
  have hget : (w.map byteToken)[tlist.length + j]? = some (byteToken t) := by
    rw [← hrest, List.append_assoc, List.getElem?_append_right (Nat.le_add_right _ _),
      Nat.add_sub_cancel_left, List.getElem?_append_left, ht]
    exact (List.getElem?_eq_some_iff.mp ht).1
  rw [List.getElem?_map, Option.map_eq_some_iff] at hget
  obtain ⟨c, hc, heq⟩ := hget
  have hct : c = t := congrArg Prod.fst heq
  rw [hc, hct]

/-- **Four tokens for two bytes**: if they are right, then there were many
bytes without a token before. -/
theorem length_of_slash {hi lo : u8} (hw : w = pre ++ b :: rest) (hlast : pre.getLast? = some 92)
    (hb : isPrintable b = false) (hhi : (hexDigit hi).isSome) (hlo : (hexDigit lo).isSome)
    (hlen : s.tlist.length + 1 ≤ pre.length)
    (h : s.tlist ++ [byteToken 92, byteToken 120, byteToken hi, byteToken lo] <+: w.map byteToken) :
    s.tlist.length + 5 ≤ pre.length := by
  have hx := getElem?_of_prefix (j := 1) h rfl
  have hh := getElem?_of_prefix (j := 2) h rfl
  have hl := getElem?_of_prefix (j := 3) h rfl
  have hslash : w[pre.length - 1]? = some 92 := by
    rw [hw, List.getElem?_append_left (by omega), ← List.getLast?_eq_getElem?, hlast]
  have hnext : w[pre.length]? = some b := by
    rw [hw, List.getElem?_append_right le_rfl, Nat.sub_self, List.getElem?_cons_zero]
  by_contra hshort
  have hcases : pre.length = s.tlist.length + 1 ∨ pre.length - 1 = s.tlist.length + 1 ∨
      pre.length - 1 = s.tlist.length + 2 ∨ pre.length - 1 = s.tlist.length + 3 := by omega
  rcases hcases with hat | hat | hat | hat
  · rw [hat, hx] at hnext
    obtain rfl := Option.some.inj hnext
    exact absurd hb (by decide)
  · rw [hat, hx] at hslash
    exact absurd hslash (by decide)
  · rw [hat, hh] at hslash
    obtain rfl := Option.some.inj hslash
    exact absurd hhi (by decide)
  · rw [hat, hl] at hslash
    obtain rfl := Option.some.inj hslash
    exact absurd hlo (by decide)

/-- **A token that is missing stays missing.** The induction is on the
bytes that follow. -/
theorem tlist_ne_of_short (hw : w = pre ++ rest) (hlen : s.tlist.length + 1 ≤ pre.length)
    (hone : s.estat = 1 → pre.getLast? = some 92) :
    (tokLoop env nocase str i (rest.flatMap keyByte) s).tlist ≠ w.map byteToken := by
  induction rest generalizing i s pre with
  | nil =>
    intro h
    have hcount := congrArg List.length h
    rw [List.flatMap_nil, tokLoop, List.length_map, hw, List.append_nil] at hcount
    omega
  | cons b rest ih =>
    intro h
    rw [List.flatMap_cons, tokLoop_append] at h
    have hpre : (tokLoop env nocase str i (keyByte b) s).tlist <+: w.map byteToken := by
      rw [← h]
      exact tlist_prefix
    have hw' : w = (pre ++ [b]) ++ rest := by rw [hw, List.append_assoc, List.singleton_append]
    refine ih hw' ?_ ?_ h
    · rw [List.length_append, List.length_singleton]
      cases hprint : isPrintable b with
      | true =>
        have hturn : (tokTurn env nocase str i b s).tlist = s.tlist ∨
            ∃ t, (tokTurn env nocase str i b s).tlist = s.tlist ++ [t] := tlist_tokTurn
        unfold keyByte
        rw [hprint, if_pos rfl, tokLoop, tokLoop]
        rcases hturn with hsame | ⟨t, hadd⟩
        · rw [hsame]
          omega
        · rw [hadd, List.length_append, List.length_singleton]
          omega
      | false =>
        by_cases hestat : s.estat = 1
        · have hslash : _ ∧ ∃ hi lo, _ ∧ _ ∧ (tokLoop env nocase str i (keyByte b) s).tlist = _ :=
            tokLoop_escape_slash hprint hestat
          obtain ⟨-, hi, lo, hhi, hlo, htlist⟩ := hslash
          rw [htlist] at hpre ⊢
          have := length_of_slash hw (hone hestat) hprint hhi hlo hlen hpre
          rw [List.length_append]
          simp only [List.length_cons, List.length_nil]
          omega
        · have hother : _ ∧ (tokLoop env nocase str i (keyByte b) s).tlist.length ≤ _ :=
            tokLoop_escape_other hprint hestat
          omega
    · intro hestat'
      rw [List.getLast?_concat]
      cases hprint : isPrintable b with
      | true =>
        unfold keyByte at hestat'
        rw [hprint, if_pos rfl, tokLoop, tokLoop] at hestat'
        rw [eq_of_estat_one hestat']
      | false =>
        by_cases hestat : s.estat = 1
        · exact absurd ((tokLoop_escape_slash hprint hestat).1.symm.trans hestat') Nat.zero_ne_one
        · exact absurd hestat' (tokLoop_escape_other hprint hestat).1

/-- The first byte that is not plain. -/
theorem exists_first_not_plain (hw : ¬∀ c ∈ w, IsPlain c) :
    ∃ pre b rest, w = pre ++ b :: rest ∧ (∀ c ∈ pre, IsPlain c) ∧ ¬IsPlain b := by
  have hsome : (w.find? fun c => !decide (IsPlain c)).isSome := by
    rw [List.find?_isSome]
    simpa using hw
  obtain ⟨b, hfind⟩ := Option.isSome_iff_exists.mp hsome
  obtain ⟨hb, pre, rest, hsplit, hpre⟩ := List.find?_eq_some_iff_append.mp hfind
  exact ⟨pre, b, rest, hsplit, by simpa using hpre, by simpa using hb⟩

/-- **Bytes of which one is not plain** are other tokens: up to the first
of them each is a token, and this one is none. -/
theorem tlist_ne_of_not_plain (hw : ¬∀ c ∈ w, IsPlain c) :
    (tokLoop env nocase str 0 (w.flatMap keyByte) {}).tlist ≠ w.map byteToken := by
  obtain ⟨pre, b, rest, hsplit, hpre, hb⟩ := exists_first_not_plain hw
  have hplain : (tokLoop env nocase str 0 (pre.flatMap keyByte) {}).estat = 0 ∧ _ :=
    tokLoop_plain hpre rfl
  generalize hs : tokLoop env nocase str 0 (pre.flatMap keyByte) {} = s at hplain
  obtain ⟨hestat, htlist⟩ := hplain
  have hlen : s.tlist.length = pre.length := by
    rw [htlist, List.length_append, List.length_map]
    exact Nat.zero_add _
  have hchar : b = 92 ∨ b = 91 := by
    by_contra hneither
    exact hb (not_or.mp hneither)
  have hkey : keyByte b = [b] := by
    rcases hchar with rfl | rfl <;> rfl
  have hw' : w = (pre ++ [b]) ++ rest := by rw [hsplit, List.append_assoc, List.singleton_append]
  rw [hsplit, List.flatMap_append, List.flatMap_cons, tokLoop_append, hs, hkey,
    List.singleton_append, tokLoop, ← hsplit]
  rcases hchar with rfl | rfl
  · rw [tokTurn_backslash (by omega)]
    refine tlist_ne_of_short hw' ?_ fun _ => List.getLast?_concat
    rw [List.length_append, List.length_singleton, hlen]
  · rw [tokTurn_open hestat]
    refine tlist_ne_of_short hw' ?_ fun hten => absurd hten (by dsimp only; omega)
    rw [List.length_append, List.length_singleton, hlen]

/-! ## What `/x` looks for -/

/-- **When a keyword means its bytes**: for all bytes in hexadecimal, the
keyword that `/x` makes is parsed to one token for each byte, with the
byte and no range, if and only if none is a backslash or an opening bracket
and none is a capital letter while the case is ignored. -/
theorem keyword_means_bytes_iff (env : TokEnv) (nocase : Bool) (t : HexText) :
    (∃ key, radareSearchX t.command = some key ∧
        tokParse env nocase key = t.bytes.map byteToken) ↔
      ∀ c ∈ t.bytes, IsPlain c ∧ ¬(nocase = true ∧ 65 ≤ c ∧ c ≤ 90) := by
  have hkey : (∃ key, radareSearchX t.command = some key ∧
      tokParse env nocase key = t.bytes.map byteToken) ↔
      tokParse env nocase (t.bytes.flatMap keyByte) = t.bytes.map byteToken := by
    rw [radareSearchX_eq]
    constructor
    · rintro ⟨key, hkey, hparse⟩
      obtain rfl := Option.some.inj hkey
      exact hparse
    · exact fun h => ⟨_, rfl, h⟩
  rw [hkey]
  unfold tokParse
  by_cases hplain : ∀ c ∈ t.bytes, IsPlain c
  · rw [(tokLoop_plain hplain rfl).2]
    have hmap : t.bytes.map (fun c => byteToken (if nocase = true then tolower c else c)) =
        t.bytes.map byteToken ↔
          ∀ c ∈ t.bytes, byteToken (if nocase = true then tolower c else c) = byteToken c :=
      List.map_inj_left
    refine hmap.trans (forall₂_congr fun c hc => ?_)
    rw [and_iff_right (hplain c hc)]
    cases nocase with
    | false => exact iff_of_true rfl fun h => Bool.false_ne_true h.1
    | true =>
      rw [if_pos rfl, eq_self_iff_true, true_and, ← tolower_eq_iff]
      exact ⟨congrArg Prod.fst, congrArg byteToken⟩
  · refine iff_of_false (tlist_ne_of_not_plain hplain) fun h => hplain fun c hc => (h c hc).1

/-- `sscanf` of texts that are all there. -/
def sscanfEnv : TokEnv where
  tokaux _ text := match text with
    | [_, _, c, d] => UInt8.ofNat ((hexDigit c).getD 0 * 16 + (hexDigit d).getD 0)
    | _ => 0
  value _ _ := 0
  hex i c d a b hc hd := by
    dsimp only
    rw [hc, hd, Option.getD_some, Option.getD_some]

/-- **A keyword without tokens**: `/x 5b`. -/
theorem bracket_has_no_token :
    let t : HexText := ⟨⟨53, 98, rfl, rfl⟩, []⟩
    ¬∃ key, radareSearchX t.command = some key ∧
      tokParse sscanfEnv false key = t.bytes.map byteToken := by
  rintro t ⟨key, hkey, hparse⟩
  have hcommand : radareSearchX t.command = some [91] := by decide
  obtain rfl := Option.some.inj (hcommand.symm.trans hkey)
  exact absurd hparse (by decide)

end Radare
