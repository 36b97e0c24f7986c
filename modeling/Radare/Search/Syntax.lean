import Radare.Search.HexKeyword
/-!
# The syntax of keywords

A keyword is a row of items: a character, one in hexadecimal, one behind a
backslash, or a class in brackets. `tok_parse` counts the characters behind
a backslash or a bracket, and is back at 0 behind each item. In a class the
first `-` separates and the first `]` closes, so that not every character
can stand in one: `tokParse_items_iff`.
-/

namespace Radare

/-- What a keyword is made of. -/
inductive KeyItem
  | plain (c : u8) (hc : IsPlain c)
  | hex (p : HexPair)
  | escaped (c : u8) (hc : c ≠ 120)
  | cls (a b : u8) (ha : IsPlain a) (hb : IsPlain b) (hab : a ≤ b)

namespace KeyItem

/-- How it is written. -/
def text : KeyItem → List u8
  | plain c _ => [c]
  | hex p => [92, 120, p.hi, p.lo]
  | escaped c _ => [92, c]
  | cls a b _ _ _ => [91, a, 45, b, 93]

/-- The token that it is. -/
def token : KeyItem → u8 × u8
  | plain c _ => (c, 0)
  | hex p => (p.byte, 0)
  | escaped c _ => (c, 0)
  | cls a b _ _ _ => (a, b - a)

/-- A class whose ends are not taken for what separates or closes it. -/
def Separable : KeyItem → Prop
  | cls a b _ _ _ => a ≠ 45 ∧ a ≠ 93 ∧ b ≠ 93
  | _ => True

/-- The tokens that are made of a class. -/
def classYields (a b : u8) : List (u8 × u8) :=
  if a = 93 then [(0, 0), (45, 0), (b, 0), (93, 0)]
  else if b = 93 then [if a = 45 then (0, 45) else (a, 0 - a), (93, 0)]
  else [if a = 45 then (0, 45) else (a, b - a)]

/-- The tokens that are made of an item. -/
def yields : KeyItem → List (u8 × u8)
  | cls a b _ _ _ => classYields a b
  | it => [it.token]

end KeyItem

variable {env : TokEnv} {nocase : Bool} {str inside post : List u8} {s : TokState} {a b c : u8}
variable {it : KeyItem} {items : List KeyItem} {i : ℕ}

/-! ## Classes -/

theorem getNum_singleton (hc : IsPlain c) : getNum env i [c] = c := if_neg hc.1

/-- A class without a character begins and ends at 0. -/
theorem getRange_nil : getRange env i [] = (0, 0) := by
  unfold getRange
  dsimp only
  rw [List.take_nil, List.drop_nil]
  exact Prod.ext (UInt8.sub_zero 0) rfl

/-- The first `-` separates. -/
theorem getRange_dash (ha : IsPlain a) (hdash : a ≠ 45) :
    getRange env i (a :: 45 :: inside) = (getNum env (i + 2) inside - a, a) := by
  have htake : ((a :: 45 :: inside).takeWhile (· ≠ 45)).length = 1 := by
    rw [List.takeWhile_cons_of_pos (by simpa using hdash), List.takeWhile_cons_of_neg (by decide)]
    rfl
  unfold getRange
  rw [htake]
  dsimp only
  rw [show (a :: 45 :: inside).take 1 = [a] from rfl, getNum_singleton ha]
  rfl

/-- With nothing in front of it the class begins at 0. -/
theorem getRange_dash_first (hb : IsPlain b) :
    getRange env i (45 :: b :: inside) = (b, 0) := by
  have htake : ((45 :: b :: inside).takeWhile (· ≠ 45)).length = 0 := by
    rw [List.takeWhile_cons_of_neg (by decide)]
    rfl
  unfold getRange
  rw [htake]
  dsimp only
  have hmax : getNum env (i + 0 + 1) (b :: inside) = b := if_neg hb.1
  rw [show (45 :: b :: inside).drop (0 + 1) = b :: inside from rfl, hmax]
  exact Prod.ext (UInt8.sub_zero b) rfl

/-- The first `]` closes it. -/
theorem tokTurn_close (h : 10 ≤ s.estat ∧ s.estat ≤ 21) :
    tokTurn env nocase str i 93 s =
      s.add (getRange env s.rangemin ((str.drop s.rangemin).take (i - s.rangemin))).2
        (getRange env s.rangemin ((str.drop s.rangemin).take (i - s.rangemin))).1 := by
  unfold tokTurn tokSwitch
  rw [if_neg (by decide), if_neg (by decide), if_pos (by omega)]
  unfold tokEmit
  dsimp only
  rw [if_neg (by omega), if_neg (by omega), if_neg (by omega), if_neg (by omega),
    if_pos (by omega), if_pos rfl]
  rfl

/-- What stands in a class is counted. -/
theorem tokLoop_inside (h : 10 ≤ s.estat) (hin : ∀ c ∈ inside, IsPlain c ∧ c ≠ 93) :
    tokLoop env nocase str i inside s = { s with estat := s.estat + inside.length } := by
  induction inside generalizing i s with
  | nil => rfl
  | cons c inside ih =>
    obtain ⟨hplain, hclose⟩ := hin c List.mem_cons_self
    have hturn : tokTurn env nocase str i c s = { s with estat := s.estat + 1 } :=
      tokTurn_inside h hplain.2 hclose fun hslash => absurd hslash hplain.1
    rw [tokLoop, hturn, ih (by dsimp only; omega) fun d hd => hin d (List.mem_cons_of_mem _ hd),
      List.length_cons]
    dsimp only
    rw [Nat.add_assoc, Nat.add_comm 1]

/-- **A class** is one token, of what stands up to the first `]`. -/
theorem tokLoop_class (h : s.estat = 0) (hlen : inside.length ≤ 11)
    (hin : ∀ c ∈ inside, IsPlain c ∧ c ≠ 93) (hstr : str.drop i = 91 :: (inside ++ post)) :
    (tokLoop env nocase str i (91 :: (inside ++ [93])) s).estat = 0 ∧
      (tokLoop env nocase str i (91 :: (inside ++ [93])) s).tlist =
        s.tlist ++ [(getRange env (i + 1) inside).swap] := by
  have htext : (str.drop (i + 1)).take (i + 1 + inside.length - (i + 1)) = inside := by
    rw [Nat.add_sub_cancel_left, ← List.drop_drop, hstr, List.drop_one, List.tail_cons,
      List.take_left]
  have hclose : tokTurn env nocase str (i + 1 + inside.length) 93
      { s with estat := 10 + inside.length, rangemin := i + 1 } = _ :=
    tokTurn_close ⟨Nat.le_add_right _ _, by dsimp only; omega⟩
  rw [tokLoop, tokTurn_open h, tokLoop_append, tokLoop_inside le_rfl hin, tokLoop, hclose, tokLoop]
  dsimp only
  rw [htext]
  exact ⟨rfl, rfl⟩

/-! ## Items -/

/-- **Plain characters** are a token each. -/
theorem tokLoop_chars {cs : List u8} (h : s.estat = 0) (hcs : ∀ c ∈ cs, IsPlain c) :
    (tokLoop env false str i cs s).estat = 0 ∧
      (tokLoop env false str i cs s).tlist = s.tlist ++ cs.map byteToken := by
  induction cs generalizing i s with
  | nil => exact ⟨h, (List.append_nil _).symm⟩
  | cons c cs ih =>
    rw [tokLoop, tokTurn_plain h (hcs c List.mem_cons_self)]
    obtain ⟨hestat, htlist⟩ := ih (i := i + 1) (s := s.add c 0) rfl
      fun d hd => hcs d (List.mem_cons_of_mem _ hd)
    refine ⟨hestat, htlist.trans ?_⟩
    rw [List.map_cons]
    exact List.append_assoc _ _ _

/-- **A class and what it leaves.** -/
theorem tokLoop_class_chars {cs : List u8} (h : s.estat = 0) (hlen : inside.length ≤ 11)
    (hin : ∀ c ∈ inside, IsPlain c ∧ c ≠ 93) (hcs : ∀ c ∈ cs, IsPlain c)
    (hstr : str.drop i = 91 :: (inside ++ post)) :
    (tokLoop env false str i (91 :: (inside ++ [93]) ++ cs) s).estat = 0 ∧
      (tokLoop env false str i (91 :: (inside ++ [93]) ++ cs) s).tlist =
        s.tlist ++ (getRange env (i + 1) inside).swap :: cs.map byteToken := by
  obtain ⟨hestat, htlist⟩ : (tokLoop env false str i (91 :: (inside ++ [93])) s).estat = 0 ∧ _ :=
    tokLoop_class h hlen hin hstr
  have hchars : ∀ j, _ ∧ (tokLoop env false str j cs (tokLoop env false str i
      (91 :: (inside ++ [93])) s)).tlist = _ := fun j => tokLoop_chars hestat hcs
  rw [tokLoop_append]
  obtain ⟨hestat', htlist'⟩ := hchars (i + (91 :: (inside ++ [93])).length)
  refine ⟨hestat', ?_⟩
  rw [htlist', htlist, List.append_assoc, List.singleton_append]

/-- **One class**, where its first `]` stands: in front, behind the `-`, or
at its end. -/
theorem tokLoop_item_class (h : s.estat = 0) (ha : IsPlain a) (hb : IsPlain b)
    (hstr : str.drop i = [91, a, 45, b, 93] ++ post) :
    (tokLoop env false str i [91, a, 45, b, 93] s).estat = 0 ∧
      (tokLoop env false str i [91, a, 45, b, 93] s).tlist = s.tlist ++ KeyItem.classYields a b := by
  have hdash : IsPlain 45 := by decide
  have hclose : IsPlain 93 := by decide
  unfold KeyItem.classYields
  by_cases ha93 : a = 93
  · subst ha93
    rw [if_pos rfl]
    have hcs : ∀ c ∈ [45, b, 93], IsPlain c := by simp [hdash, hb, hclose]
    have hclass : _ ∧ _ = s.tlist ++ (getRange env (i + 1) []).swap :: _ :=
      tokLoop_class_chars h (Nat.zero_le _) (List.forall_mem_nil _) hcs hstr
    rw [getRange_nil] at hclass
    exact hclass
  rw [if_neg ha93]
  by_cases hb93 : b = 93
  · subst hb93
    rw [if_pos rfl]
    have hin : ∀ c ∈ [a, 45], IsPlain c ∧ c ≠ 93 := by simp [ha, ha93, hdash]
    have hclass : _ ∧ _ =
        s.tlist ++ (getRange env (i + 1) [a, 45]).swap :: [93].map byteToken :=
      tokLoop_class_chars h (by simp) hin (by simp [hclose]) hstr
    refine ⟨hclass.1, hclass.2.trans ?_⟩
    by_cases ha45 : a = 45
    · rw [if_pos ha45, ha45, getRange_dash_first hdash]
      rfl
    · rw [if_neg ha45, getRange_dash ha ha45]
      rfl
  rw [if_neg hb93]
  have hin : ∀ c ∈ [a, 45, b], IsPlain c ∧ c ≠ 93 := by
    simp [ha, ha93, hdash, hb, hb93]
  have hclass : _ ∧ (tokLoop env false str i (91 :: ([a, 45, b] ++ [93])) s).tlist = _ :=
    tokLoop_class h (by simp) hin hstr
  refine ⟨hclass.1, hclass.2.trans ?_⟩
  by_cases ha45 : a = 45
  · rw [if_pos ha45, ha45, getRange_dash_first hdash]
    rfl
  · rw [if_neg ha45, getRange_dash ha ha45, getNum_singleton hb]
    rfl

/-- **One item**, outside of everything, is its tokens. -/
theorem tokLoop_item (h : s.estat = 0) (hstr : str.drop i = it.text ++ post) :
    (tokLoop env false str i it.text s).estat = 0 ∧
      (tokLoop env false str i it.text s).tlist = s.tlist ++ it.yields := by
  cases it with
  | plain c hc => exact tokLoop_chars h fun d hd => by rwa [List.mem_singleton.mp hd]
  | hex p =>
    obtain ⟨hi, hhi⟩ := Option.isSome_iff_exists.mp p.hi_digit
    obtain ⟨lo, hlo⟩ := Option.isSome_iff_exists.mp p.lo_digit
    have hbyte : p.byte = UInt8.ofNat (hi * 16 + lo) := by
      unfold HexPair.byte
      simp only [hhi, hlo, Option.get_some]
    rw [KeyItem.text, tokLoop, tokTurn_backslash (by omega), tokLoop, tokTurn_x rfl, tokLoop,
      tokTurn_first rfl (plain_of_digit p.hi_digit).1, tokLoop,
      tokTurn_second rfl (plain_of_digit p.lo_digit).1, tokLoop, env.hex _ _ _ _ _ hhi hlo, ← hbyte]
    exact ⟨rfl, rfl⟩
  | escaped c hc =>
    rw [KeyItem.text, tokLoop, tokTurn_backslash (by omega), tokLoop, tokTurn_escaped rfl hc,
      tokLoop]
    exact ⟨rfl, rfl⟩
  | cls a b ha hb hab => exact tokLoop_item_class h ha hb hstr

/-- **A row of items** is the tokens of each, in order. -/
theorem tokLoop_items (h : s.estat = 0) (hstr : str.drop i = items.flatMap KeyItem.text ++ post) :
    (tokLoop env false str i (items.flatMap KeyItem.text) s).tlist =
      s.tlist ++ items.flatMap KeyItem.yields := by
  induction items generalizing i s with
  | nil => exact (List.append_nil _).symm
  | cons it items ih =>
    rw [List.flatMap_cons, List.append_assoc] at hstr
    obtain ⟨hestat, htlist⟩ : (tokLoop env false str i it.text s).estat = 0 ∧ _ :=
      tokLoop_item h hstr
    have hrest : str.drop (i + it.text.length) = items.flatMap KeyItem.text ++ post := by
      rw [← List.drop_drop, hstr, List.drop_left]
    rw [List.flatMap_cons, tokLoop_append, ih hestat hrest, htlist, List.flatMap_cons,
      List.append_assoc]

/-! ## One token each -/

theorem yields_ne_nil : it.yields ≠ [] := by
  cases it with
  | cls a b ha hb hab =>
    show KeyItem.classYields a b ≠ []
    unfold KeyItem.classYields
    split_ifs <;> exact List.cons_ne_nil _ _
  | _ => exact List.cons_ne_nil _ _

/-- An item is its one token if it can be separated. -/
theorem yields_eq_iff : it.yields = [it.token] ↔ it.Separable := by
  cases it with
  | cls a b ha hb hab =>
    show KeyItem.classYields a b = [(a, b - a)] ↔ a ≠ 45 ∧ a ≠ 93 ∧ b ≠ 93
    unfold KeyItem.classYields
    split_ifs with ha93 hb93 ha45 ha45
    · exact iff_of_false (fun h => by simp at h) fun h => h.2.1 ha93
    · exact iff_of_false (fun h => by simp at h) fun h => h.2.2 hb93
    · exact iff_of_false (fun h => by simp at h) fun h => h.2.2 hb93
    · refine iff_of_false (fun h => ?_) fun h => h.1 ha45
      have hmin : 0 = a := congrArg Prod.fst (List.head_eq_of_cons_eq h)
      rw [ha45] at hmin
      exact absurd hmin (by decide)
    · exact iff_of_true rfl ⟨ha45, ha93, hb93⟩
  | _ => exact iff_of_true rfl trivial

/-- Rows that are not empty make one list of single ones if each is
single. -/
theorem flatMap_eq_map_iff {α β : Type} {f : α → List β} {g : α → β} (hf : ∀ x, f x ≠ [])
    (l : List α) : l.flatMap f = l.map g ↔ ∀ x ∈ l, f x = [g x] := by
  have hlong : ∀ l : List α, l.length ≤ (l.flatMap f).length := by
    intro l
    induction l with
    | nil => exact le_rfl
    | cons x l ih =>
      have := List.length_pos_iff.mpr (hf x)
      rw [List.flatMap_cons, List.length_append, List.length_cons]
      omega
  induction l with
  | nil => exact iff_of_true rfl (List.forall_mem_nil _)
  | cons x l ih =>
    rw [List.flatMap_cons, List.map_cons, List.forall_mem_cons]
    refine Iff.trans ?_ (and_congr_right fun _ => ih)
    constructor
    · intro h
      obtain ⟨t, more, hfx⟩ := List.exists_cons_of_ne_nil (hf x)
      rw [hfx, List.cons_append] at h
      obtain ⟨rfl, hmore⟩ := List.cons.inj h
      have hcount := congrArg List.length hmore
      rw [List.length_append, List.length_map] at hcount
      have hnil : more = [] := List.length_eq_zero_iff.mp (by have := hlong l; omega)
      rw [hnil, List.nil_append] at hmore
      exact ⟨by rw [hfx, hnil], hmore⟩
    · rintro ⟨hx, hl⟩
      rw [hx, hl, List.singleton_append]

/-- **The syntax of keywords**: for all rows of items, `tok_parse` makes of
their text exactly the token of each, in order, if and only if every class
in it begins with neither a `-` nor a `]` and does not end with a `]`. -/
theorem tokParse_items_iff (env : TokEnv) (items : List KeyItem) :
    tokParse env false (items.flatMap KeyItem.text) = items.map KeyItem.token ↔
      ∀ it ∈ items, it.Separable := by
  have hrun : tokParse env false (items.flatMap KeyItem.text) = [] ++ items.flatMap KeyItem.yields :=
    tokLoop_items rfl (List.append_nil _).symm
  rw [hrun, List.nil_append, flatMap_eq_map_iff fun _ => yields_ne_nil]
  exact forall₂_congr fun _ _ => yields_eq_iff

/-- **A class that begins with a `-`**: `[--.]` begins at 0. -/
theorem dash_begins_at_zero :
    let it : KeyItem := .cls 45 46 (by decide) (by decide) (by decide)
    tokParse sscanfEnv false it.text = [(0, 45)] ∧ it.token = (45, 1) := by
  decide

end Radare
