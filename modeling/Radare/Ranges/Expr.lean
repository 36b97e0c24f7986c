import Radare.Flags.Model
import Radare.Ranges.Add
import Radare.Utils.Literal
/-!
# Range expressions

`ranges_new` makes a list of ranges of a text, of single addresses and pairs
of them, by commas. It cuts the text where it stands, with one cursor at the
number it is in and one at the number in front of a dash; a comma is put back
behind its token, a dash is not. What it makes of a text is what
`get_offset` makes of the numbers, added one behind the other
(`rangesNew_text`).

There are addresses that it cannot cover, and numbers that `get_offset` does
not read as they are written: `rangesNew_union_iff`.
-/

namespace Radare

open Common Utils

/-! ## The code -/

/-- The variables of `ranges_new`. -/
structure NewState where
  /-- `str`, with its NUL. -/
  str : List u8
  p : ℕ := 0
  p2 : Option ℕ := none
  rgs : List RangeT := []

/-- What is added for the token that ends here. -/
def newToken (getOffset : List u8 → ut64) (s : NewState) : List RangeT :=
  match s.p2 with
  | some p2 =>
    let addr := getOffset (Utils.cstr s.str s.p)
    let addr2 := getOffset (Utils.cstr s.str p2)
    (rangesAdd s.rgs addr addr2 true).rang
  | none =>
    let addr := getOffset (Utils.cstr s.str s.p)
    (rangesAdd s.rgs addr (addr + 1) true).rang

/-- A turn of its loop. -/
def newTurn (getOffset : List u8 → ut64) (s : NewState) (i : ℕ) : NewState :=
  match s.str.getD i 0 with
  | 45 => { s with str := s.str.set i 0, p2 := some s.p, p := i + 1 }
  | 44 =>
    let s := { s with str := s.str.set i 0 }
    { str := s.str.set i 44, p := i + 1, rgs := newToken getOffset s }
  | _ => s

/-- `ranges_new`. The cursor `p` is never null behind the loop. -/
def rangesNew (getOffset : List u8 → ut64) (string : List u8) : List RangeT :=
  newToken getOffset
    ((List.range (string.length + 1)).foldl (newTurn getOffset) { str := string ++ [0] })

/-! ## The texts -/

/-- A number in decimal, or in hexadecimal behind `0x`. -/
structure NumText where
  hex : Bool
  digits : List u8
  ne_nil : digits ≠ []
  digit : ∀ c ∈ digits, (hexDigit c).any (· < if hex then 16 else 10) = true
  lt : value (if hex then 16 else 10) (digits.filterMap hexDigit) < 2 ^ 64

namespace NumText

/-- How it is written. -/
def text (t : NumText) : List u8 := if t.hex then 48 :: 120 :: t.digits else t.digits

/-- The number. -/
def val (t : NumText) : ℕ := value (if t.hex then 16 else 10) (t.digits.filterMap hexDigit)

/-- The number as an address. -/
def num (t : NumText) : ut64 := UInt64.ofNat t.val

/-- What `sscanf` makes of it: a decimal number has to be a `long long`. -/
def scanned (t : NumText) : ut64 :=
  UInt64.ofNat (if t.hex then t.val else min t.val (2 ^ 63 - 1))

/-- What `get_offset` makes of it: an option of that name comes first. -/
def readAs (option : List u8 → ut64) (t : NumText) : ut64 :=
  if (option t.text).toNat % 2 ^ 32 ≠ 0 then option t.text else t.scanned

/-- The number as a text alone. -/
def literal (t : NumText) : Literal := ⟨t.hex, t.digits, t.ne_nil, t.digit⟩

end NumText

/-- A token of an expression. -/
inductive RangeTok
  | one (a : NumText)
  | pair (a b : NumText) (h : a.num ≤ b.num)

namespace RangeTok

/-- How it is written. -/
def text : RangeTok → List u8
  | one a => a.text
  | pair a b _ => a.text ++ 45 :: b.text

/-- The numbers in it. -/
def nums : RangeTok → List NumText
  | one a => [a]
  | pair a b _ => [a, b]

/-- The addresses that it stands for. -/
def addrs : RangeTok → Set ut64
  | one a => {a.num}
  | pair a b _ => Set.Ico a.num b.num

/-- The ends of the range that is added, by what the numbers are read as. -/
def ends (read : NumText → ut64) : RangeTok → ut64 × ut64
  | one a => (read a, read a + 1)
  | pair a b _ => (read b, read a)

/-- The addresses of this range. -/
def taken (read : NumText → ut64) (tok : RangeTok) : Set ut64 :=
  Set.Ico (min (tok.ends read).1 (tok.ends read).2) (max (tok.ends read).1 (tok.ends read).2)

/-- A number in it is read as another one. -/
def Misread (read : NumText → ut64) (tok : RangeTok) : Prop := ∃ a ∈ tok.nums, read a ≠ a.num

/-- A single address that is the last one. -/
def IsLast : RangeTok → Prop
  | one a => a.num = -1
  | pair _ _ _ => False

end RangeTok

/-- Tokens, and a comma behind each but the last. -/
def exprText : RangeTok → List RangeTok → List u8
  | tok, [] => tok.text
  | tok, next :: toks => tok.text ++ 44 :: exprText next toks

/-- An expression, which may be empty. -/
def exprOf : List RangeTok → List u8
  | [] => []
  | tok :: toks => exprText tok toks

variable {getOffset : List u8 → ut64} {read : NumText → ut64} {a b : NumText} {tok : RangeTok}
variable {toks : List RangeTok} {rgs : List RangeT} {pre post w : List u8} {s : NewState}
variable {c : u8} {i : ℕ} {x : ut64}

/-! ## The loop -/

/-- What a token adds. -/
def RangeTok.add (read : NumText → ut64) (rgs : List RangeT) (tok : RangeTok) : List RangeT :=
  (rangesAdd rgs (tok.ends read).1 (tok.ends read).2 true).rang

/-- A digit is no separator. -/
theorem of_mem_text (hc : c ∈ a.text) : c ≠ 0 ∧ c ≠ 44 ∧ c ≠ 45 := by
  have hliteral : c ∈ a.literal.text := hc
  refine ⟨?_, ?_, ?_⟩
  all_goals
    rintro rfl
    exact absurd (Literal.of_mem_text hliteral) (by decide)

/-- **Within a number nothing happens.** -/
theorem newTurn_number (hstr : s.str = pre ++ w ++ post) (hw : ∀ c ∈ w, c ≠ 44 ∧ c ≠ 45) :
    (List.range' pre.length w.length).foldl (newTurn getOffset) s = s := by
  induction w generalizing pre with
  | nil => rfl
  | cons c w ih =>
    have hc := hw c List.mem_cons_self
    have hget : s.str.getD pre.length 0 = c := by
      rw [hstr, List.append_assoc, List.cons_append]
      exact getD_front _ _ _
    have hturn : newTurn getOffset s pre.length = s := by
      unfold newTurn
      rw [hget]
      split
      · exact absurd rfl hc.2
      · exact absurd rfl hc.1
      · rfl
    have hnext : s.str = (pre ++ [c]) ++ w ++ post := by simp [hstr]
    have hrest := ih hnext fun d hd => hw d (List.mem_cons_of_mem _ hd)
    rw [List.length_append, List.length_singleton] at hrest
    rw [List.length_cons, List.range'_succ, List.foldl_cons, hturn]
    exact hrest

/-- The memory of a token that has been read. -/
def RangeTok.cut : RangeTok → List u8
  | .one a => a.text
  | .pair a b _ => a.text ++ 0 :: b.text

/-- Where `ranges_new` stands behind a token. -/
def RangeTok.passed (tok : RangeTok) (pre post : List u8) (rgs : List RangeT) : NewState :=
  match tok with
  | .one _ => { str := pre ++ tok.cut ++ post, p := pre.length, rgs := rgs }
  | .pair a _ _ =>
    { str := pre ++ tok.cut ++ post, p := (pre ++ a.text ++ [0]).length, p2 := some pre.length,
      rgs := rgs }

theorem length_cut : tok.cut.length = tok.text.length := by
  cases tok with
  | one a => rfl
  | pair a b h =>
    unfold RangeTok.cut RangeTok.text
    rw [List.length_append, List.length_append]
    rfl

/-- **A token passed.** -/
theorem newTurn_token :
    (List.range' pre.length tok.text.length).foldl (newTurn getOffset)
      { str := pre ++ tok.text ++ post, p := pre.length, rgs := rgs } = tok.passed pre post rgs := by
  have hplain : ∀ (a : NumText), ∀ c ∈ a.text, c ≠ 44 ∧ c ≠ 45 := fun a c hc =>
    (of_mem_text hc).2
  cases tok with
  | one a => exact newTurn_number rfl (hplain a)
  | pair a b h =>
    -- the numbers pass, and the dash between them moves the cursors
    generalize hs : NewState.mk (pre ++ RangeTok.text (.pair a b h) ++ post) pre.length none rgs = s
    have hfirst : (List.range' pre.length a.text.length).foldl (newTurn getOffset) s = s := by
      have hstr : s.str = pre ++ a.text ++ (45 :: b.text ++ post) := by
        rw [← hs]
        simp [RangeTok.text]
      exact newTurn_number hstr (hplain a)
    have hdash : newTurn getOffset s (pre ++ a.text).length =
        RangeTok.passed (.pair a b h) pre post rgs := by
      have hstr : pre ++ (a.text ++ 45 :: b.text) ++ post =
          (pre ++ a.text) ++ 45 :: (b.text ++ post) := by simp
      rw [← hs]
      unfold newTurn RangeTok.text
      dsimp only
      rw [hstr, getD_front, set_front]
      simp [RangeTok.passed, RangeTok.cut, Nat.add_assoc]
    have hsecond : (List.range' (pre ++ a.text ++ [0]).length b.text.length).foldl
        (newTurn getOffset) (RangeTok.passed (.pair a b h) pre post rgs) =
          RangeTok.passed (.pair a b h) pre post rgs := by
      have hstr : (RangeTok.passed (.pair a b h) pre post rgs).str =
          (pre ++ a.text ++ [0]) ++ b.text ++ post := by
        simp [RangeTok.passed, RangeTok.cut]
      exact newTurn_number hstr (hplain b)
    rw [List.length_append, List.length_append, List.length_singleton] at hsecond
    rw [List.length_append] at hdash
    rw [RangeTok.text, List.length_append, List.length_cons, ← List.range'_append_1,
      List.foldl_append, hfirst, List.range'_succ, List.foldl_cons, hdash]
    exact hsecond

/-- **What is added for it.** -/
theorem newToken_passed (hread : ∀ a, getOffset a.text = read a) :
    newToken getOffset (tok.passed pre (0 :: post) rgs) = tok.add read rgs := by
  have hzero : ∀ a : NumText, 0 ∉ a.text := fun a h => (of_mem_text h).1 rfl
  cases tok with
  | one a =>
    unfold newToken RangeTok.passed RangeTok.cut RangeTok.add RangeTok.ends
    dsimp only
    rw [Utils.cstr_append (hzero a), hread]
  | pair a b h =>
    have hfirst : Utils.cstr (pre ++ (a.text ++ 0 :: b.text) ++ 0 :: post) pre.length = a.text := by
      have hstr : pre ++ (a.text ++ 0 :: b.text) ++ 0 :: post =
          pre ++ a.text ++ 0 :: (b.text ++ 0 :: post) := by simp
      rw [hstr, Utils.cstr_append (hzero a)]
    have hsecond : Utils.cstr (pre ++ (a.text ++ 0 :: b.text) ++ 0 :: post)
        (pre ++ a.text ++ [0]).length = b.text := by
      have hstr : pre ++ (a.text ++ 0 :: b.text) ++ 0 :: post =
          (pre ++ a.text ++ [0]) ++ b.text ++ 0 :: post := by simp
      rw [hstr, Utils.cstr_append (hzero b)]
    unfold newToken RangeTok.passed RangeTok.cut RangeTok.add RangeTok.ends
    dsimp only
    rw [hfirst, hsecond, hread, hread]

/-- **The comma behind it.** -/
theorem newTurn_comma (hread : ∀ a, getOffset a.text = read a) :
    newTurn getOffset (tok.passed pre (44 :: post) rgs) (pre ++ tok.cut).length =
      { str := (pre ++ tok.cut ++ [44]) ++ post, p := (pre ++ tok.cut ++ [44]).length,
        rgs := tok.add read rgs } := by
  have hstr : (tok.passed pre (44 :: post) rgs).str = pre ++ tok.cut ++ 44 :: post := by
    cases tok <;> rfl
  have hcut : { tok.passed pre (44 :: post) rgs with str := pre ++ tok.cut ++ 0 :: post } =
      tok.passed pre (0 :: post) rgs := by
    cases tok <;> rfl
  unfold newTurn
  dsimp only
  rw [hstr, getD_front, set_front, hcut, newToken_passed hread]
  have hlen : (pre ++ tok.cut ++ [44]).length = (pre ++ tok.cut).length + 1 := List.length_append
  rw [set_front, hlen, List.append_assoc (pre ++ tok.cut) [44]]
  rfl

/-- **The rest of a text**, from a token on. -/
theorem newTurn_text (pre : List u8) (hread : ∀ a, getOffset a.text = read a) :
    newToken getOffset ((List.range' pre.length ((exprText tok toks).length + 1)).foldl
      (newTurn getOffset) { str := pre ++ exprText tok toks ++ [0], p := pre.length, rgs := rgs }) =
        (tok :: toks).foldl (RangeTok.add read) rgs := by
  induction toks generalizing tok pre rgs with
  | nil =>
    have hend : newTurn getOffset (tok.passed pre [0] rgs) (pre ++ tok.cut).length =
        tok.passed pre [0] rgs := by
      have hstr : (tok.passed pre [0] rgs).str = pre ++ tok.cut ++ [0] := by cases tok <;> rfl
      unfold newTurn
      rw [hstr, getD_front]
      rfl
    rw [List.length_append, length_cut] at hend
    rw [exprText, ← List.range'_append_1, List.foldl_append, newTurn_token, List.range'_one,
      List.foldl_cons, List.foldl_nil, hend, newToken_passed hread]
    rfl
  | cons next toks ih =>
    have hcomma : newTurn getOffset (tok.passed pre (44 :: (exprText next toks ++ [0])) rgs)
        (pre ++ tok.cut).length = _ := newTurn_comma hread
    rw [List.length_append, length_cut] at hcomma
    have hstr : pre ++ exprText tok (next :: toks) ++ [0] =
        pre ++ tok.text ++ 44 :: (exprText next toks ++ [0]) := by simp [exprText]
    have hlen : (exprText tok (next :: toks)).length + 1 =
        tok.text.length + ((exprText next toks).length + 1 + 1) := by
      rw [exprText, List.length_append, List.length_cons]
      rfl
    rw [hstr, hlen, ← List.range'_append_1, List.foldl_append, newTurn_token, List.range'_succ,
      List.foldl_cons, hcomma]
    have hp : pre.length + tok.text.length + 1 = (pre ++ tok.cut ++ [44]).length := by
      rw [List.length_append, List.length_append, length_cut, List.length_singleton]
    rw [hp, ← List.append_assoc]
    exact ih _

/-- **What `ranges_new` makes of a text**: one range for each token, added one
behind the other. -/
theorem rangesNew_text (hread : ∀ a, getOffset a.text = read a) :
    rangesNew getOffset (exprText tok toks) = (tok :: toks).foldl (RangeTok.add read) [] := by
  unfold rangesNew
  rw [List.range_eq_range']
  exact newTurn_text [] hread

/-- **What the list covers**: all that was taken. -/
theorem covered_foldl_add (hwf : ∀ r ∈ rgs, r.Wf) :
    covered (toks.foldl (RangeTok.add read) rgs) = covered rgs ∪ cover (RangeTok.taken read) toks := by
  induction toks generalizing rgs with
  | nil => rw [List.foldl_nil, cover_nil, Set.union_empty]
  | cons tok toks ih =>
    have hadd : covered (tok.add read rgs) = covered rgs ∪ tok.taken read := covered_rangesAdd hwf
    have hwf' : ∀ r ∈ tok.add read rgs, r.Wf := rangesAdd_wf hwf
    rw [List.foldl_cons, ih hwf', hadd, cover_cons, Set.union_assoc]

/-! ## The numbers -/

/-- A number that is small enough is read as far as its kind goes. -/
theorem ofNat_read (a : NumText) : UInt64.ofNat a.literal.read = a.scanned := by
  obtain ⟨hex, digits, hne, hdigit, hlt⟩ := a
  cases hex with
  | true => exact congrArg UInt64.ofNat (Nat.min_eq_left (Nat.le_pred_of_lt hlt))
  | false => rfl

/-- **A number, in `get_offset`**: its option, or what `sscanf` makes of
it. -/
theorem offsetOf_text (env : MathEnv) (math : List u8 → ut64)
    (hdigit : ∀ c name, 48 ≤ c ∧ c ≤ 57 → env.flagGet (c :: name) = none) (a : NumText) :
    offsetOf env math a.text = a.readAs (optionOf env math) := by
  have hprog := Literal.getOffset_within env a.literal 0 0 hdigit
  have htext : a.literal.within 0 0 = a.text := List.append_nil _
  have hname : a.literal.text ++ List.replicate 0 32 = a.text := List.append_nil _
  rw [htext, hname, ofNat_read] at hprog
  unfold offsetOf NumText.readAs
  rw [hprog, Prog.inside_bind, Prog.run_bind_of (run_configGetI env math a.text env.disk)]
  by_cases hret : (optionOf env math a.text).toUInt32 ≠ 0
  · rw [if_pos hret, if_pos (toUInt32_ne_zero_iff.mp hret)]
    rfl
  · rw [if_neg hret, if_neg (mt toUInt32_ne_zero_iff.mpr hret)]
    rfl

/-! ## What an expression stands for -/

/-- The last address is in no range. -/
theorem last_not_taken : (-1 : ut64) ∉ cover (RangeTok.taken read) toks := by
  rintro ⟨tok, -, -, hlt⟩
  have hle := (max ((tok.ends read).1) ((tok.ends read).2)).toNat_lt
  have hlast : (-1 : ut64).toNat = 2 ^ 64 - 1 := by decide
  have := UInt64.lt_iff_toNat_lt.mp hlt
  omega

/-- **A token whose numbers are read as they are** takes what it stands for,
unless it is the last address. -/
theorem taken_eq_addrs (hread : ¬tok.Misread read) (hlast : ¬tok.IsLast) :
    tok.taken read = tok.addrs := by
  have hsame : ∀ a ∈ tok.nums, read a = a.num := fun a ha => by
    by_contra hne
    exact hread ⟨a, ha, hne⟩
  cases tok with
  | one a =>
    have ha : read a = a.num := hsame a List.mem_cons_self
    have hnext : (a.num + 1).toNat = a.num.toNat + 1 := by
      have hne : a.num ≠ -1 := hlast
      have hlt := a.num.toNat_lt
      have hmax : a.num.toNat ≠ 2 ^ 64 - 1 := fun h => hne (UInt64.toNat_inj.mp h)
      rw [UInt64.toNat_add, Nat.mod_eq_of_lt]
      · rfl
      · exact lt_of_lt_of_le (Nat.succ_lt_succ (by omega)) le_rfl
    have hle : a.num ≤ a.num + 1 := UInt64.le_iff_toNat_le.mpr (by omega)
    unfold RangeTok.taken RangeTok.ends RangeTok.addrs
    dsimp only
    rw [ha, min_eq_left hle, max_eq_right hle]
    ext x
    rw [Set.mem_Ico, Set.mem_singleton_iff, UInt64.le_iff_toNat_le, UInt64.lt_iff_toNat_lt, hnext,
      ← UInt64.toNat_inj]
    omega
  | pair a b h =>
    have ha : read a = a.num := hsame a List.mem_cons_self
    have hb : read b = b.num := hsame b (by simp [RangeTok.nums])
    unfold RangeTok.taken RangeTok.ends RangeTok.addrs
    dsimp only
    rw [ha, hb, min_eq_right h, max_eq_left h]

/-- **What the list covers**, by what `get_offset` makes of the numbers. -/
theorem covered_rangesNew (env : MathEnv) (flags : List FlagT) (math : List u8 → ut64)
    (tok : RangeTok) (toks : List RangeTok) :
    covered (rangesNew (offsetOf (env.withFlags flags) math) (exprText tok toks)) =
      cover (RangeTok.taken (NumText.readAs (optionOf env math))) (tok :: toks) := by
  have hread := offsetOf_text (env.withFlags flags) math (withFlags_digit env flags)
  rw [rangesNew_text hread, covered_foldl_add (List.forall_mem_nil _)]
  exact (congrArg (· ∪ _) cover_nil).trans (Set.empty_union _)

/-- **When a range expression means its addresses**: for all tables of flags,
configurations and tokens, the list of `ranges_new` covers exactly the
addresses of the tokens, if and only if there are any, none is the last
address alone, and each token with a number that is read as another one (a
decimal number from 2^63 on, or the name of an option) is made up for: the
tokens take what it stands for, and stand for what it takes. -/
theorem rangesNew_union_iff (env : MathEnv) (flags : List FlagT) (math : List u8 → ut64)
    (toks : List RangeTok) :
    covered (rangesNew (offsetOf (env.withFlags flags) math) (exprOf toks)) =
        cover RangeTok.addrs toks ↔
      toks ≠ [] ∧ ∀ t ∈ toks, ¬t.IsLast ∧
        (t.Misread (NumText.readAs (optionOf env math)) →
          t.addrs ⊆ cover (RangeTok.taken (NumText.readAs (optionOf env math))) toks ∧
          t.taken (NumText.readAs (optionOf env math)) ⊆ cover RangeTok.addrs toks) := by
  cases toks with
  | nil =>
    -- the empty text is the address 0
    refine iff_of_false (fun h => ?_) fun h => h.1 rfl
    have hin : (0 : ut64) ∈ covered (rangesNew (offsetOf (env.withFlags flags) math) (exprOf [])) :=
      ⟨⟨0, 1⟩, List.mem_singleton_self _, RangeT.mem_addrs.mpr (by decide)⟩
    rw [h, cover_nil] at hin
    exact hin
  | cons tok toks =>
    rw [exprOf, covered_rangesNew, and_iff_right (List.cons_ne_nil _ _)]
    generalize NumText.readAs (optionOf env math) = read
    generalize tok :: toks = all
    constructor
    · intro h t ht
      refine ⟨fun hlast => ?_, fun _ => ⟨?_, ?_⟩⟩
      · cases t with
        | one a =>
          have hin : (-1 : ut64) ∈ cover RangeTok.addrs all :=
            ⟨_, ht, (show a.num = -1 from hlast).symm⟩
          rw [← h] at hin
          exact last_not_taken hin
        | pair a b hab => exact hlast
      · rw [h]
        exact fun x hx => ⟨t, ht, hx⟩
      · rw [← h]
        exact fun x hx => ⟨t, ht, hx⟩
    · intro h
      refine Set.Subset.antisymm ?_ ?_
      · rintro x ⟨t, ht, hx⟩
        obtain ⟨hlast, hmis⟩ := h t ht
        by_cases hm : t.Misread read
        · exact (hmis hm).2 hx
        · exact ⟨t, ht, taken_eq_addrs hm hlast ▸ hx⟩
      · rintro x ⟨t, ht, hx⟩
        obtain ⟨hlast, hmis⟩ := h t ht
        by_cases hm : t.Misread read
        · exact (hmis hm).1 hx
        · exact ⟨t, ht, (taken_eq_addrs hm hlast).symm ▸ hx⟩

/-- **The last address covers all others**: `0xffffffffffffffff`. -/
theorem last_address_not_covered :
    let a : NumText :=
      ⟨true, List.replicate 16 102, by decide, by decide +kernel, by decide +kernel⟩
    covered (rangesNew (offsetOf (Utils.MathEnv.withFlags {} []) fun _ => 0) (exprOf [.one a])) ≠
      cover RangeTok.addrs [.one a] := by
  intro a h
  have hnum : a.num = -1 := by decide +kernel
  have hin : (-1 : ut64) ∈ cover RangeTok.addrs [.one a] :=
    ⟨_, List.mem_singleton_self _, hnum.symm⟩
  rw [← h, exprOf, covered_rangesNew] at hin
  exact last_not_taken hin

end Radare
