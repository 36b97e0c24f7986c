import Radare.Cons.Grep
import Radare.Model.Text
/-!
# Texts with escape sequences

`ansistrlen` counts the characters of a text that are not part of an escape
sequence, and `ansistrchrn` goes to a place behind so many of them. Both run
over a sequence up to the character that ends it, and step over that one then.
A sequence that the end of the text cuts off is run over up to the NUL, and the
step is over the NUL (`ansi_agree_iff`).

The lengths are those of strings that an `int` can count.
-/

namespace Radare

/-! ## The code -/

/-- The loop over an escape sequence from `i` on: where it stops. -/
def ansiEnd (mem : List u8) : ℕ → ℕ → Option ℕ
  | 0, _ => none
  | fuel + 1, i => mem[i]?.bind fun c =>
    if c ≠ 0 ∧ c ≠ 74 ∧ c ≠ 109 ∧ c ≠ 72 then ansiEnd mem fuel (i + 1) else some i

/-- The body of both loops, at a character: the place of the last one that is
run over, and the length counted. -/
def ansiItem (mem : List u8) (i : ℕ) (len : ℤ) : Option (ℕ × ℤ) :=
  mem[i]?.bind fun c =>
    if c = 0x1b then
      mem[i + 1]?.bind fun d =>
        if d = 91 then (ansiEnd mem mem.length (i + 1)).map (·, len) else some (i, len + 1)
    else some (i, len + 1)

/-- The loop of `ansistrlen`. -/
def ansistrlenLoop (mem : List u8) : ℕ → ℕ → ℤ → Option ℤ
  | 0, _, _ => none
  | fuel + 1, i, len => mem[i]?.bind fun c =>
    if c = 0 then some len
    else (ansiItem mem i len).bind fun (i, len) => ansistrlenLoop mem fuel (i + 1) len

/-- `ansistrlen`, with nothing for a look outside of the string and its NUL. -/
def ansistrlen (str : List u8) : Option ℤ :=
  ansistrlenLoop (str ++ [0]) (str.length + 1) 0 0

/-- The loop of `ansistrchrn`. -/
def ansistrchrnLoop (mem : List u8) (n : ℤ) : ℕ → ℕ → ℤ → Option ℕ
  | 0, _, _ => none
  | fuel + 1, i, len => mem[i]?.bind fun c =>
    if c = 0 then some i
    else if n = len then some i
    else (ansiItem mem i len).bind fun (i, len) => ansistrchrnLoop mem n fuel (i + 1) len

/-- `ansistrchrn`: the place returned, in the string. -/
def ansistrchrn (str : List u8) (n : ℤ) : Option ℕ :=
  ansistrchrnLoop (str ++ [0]) n (str.length + 1) 0 0

/-! ## What it is for -/

/-- The text up to the place has so many characters to be seen, or all that
there are, and nothing outside of it is looked at. -/
def AnsiAgree (str : List u8) (n : ℤ) : Prop :=
  ∃ len k, ansistrlen str = some len ∧ ansistrchrn str n = some k ∧ k ≤ str.length ∧
    ansistrlen (str.take k) = some (min n len)

/-! ## When it does it -/

/-- The character ends an escape sequence. -/
def ansiEnds (c : u8) : Bool := c = 74 ∨ c = 109 ∨ c = 72

/-- An escape sequence starts with the character, in front of a text. -/
def ansiStarts (c : u8) (s : List u8) : Bool := c = 0x1b ∧ s.head? = some 91

/-- The rest of a text, from the inside of an escape sequence or not, is not cut
off inside of one. -/
def ansiWhole : Bool → List u8 → Bool
  | inside, [] => !inside
  | true, c :: s => ansiWhole (!ansiEnds c) s
  | false, c :: s => ansiWhole (ansiStarts c s) s

/-- The characters to be seen. -/
def ansiVisible : Bool → List u8 → ℕ
  | _, [] => 0
  | true, c :: s => ansiVisible (!ansiEnds c) s
  | false, c :: s => ansiVisible (ansiStarts c s) s + if ansiStarts c s then 0 else 1

/-- The place behind so many of them, not inside of a sequence. -/
def ansiColumn : Bool → ℤ → List u8 → ℕ
  | _, _, [] => 0
  | true, n, c :: s => ansiColumn (!ansiEnds c) n s + 1
  | false, n, c :: s =>
    if n = 0 then 0
    else ansiColumn (ansiStarts c s) (if ansiStarts c s then n else n - 1) s + 1

variable {pre s mid rest : List u8} {c e : u8} {i fuel : ℕ} {n len : ℤ} {inside : Bool}

/-! ## One sequence -/

theorem getElem?_front (pre s : List u8) (c : u8) : (pre ++ c :: s ++ [0])[pre.length]? = some c := by
  rw [List.append_assoc, List.getElem?_append_right le_rfl, Nat.sub_self]
  rfl

/-- The loop runs over what does not end the sequence, and stops at the NUL at
the latest. -/
theorem ansiEnd_eq (pre rest : List u8) (fuel : ℕ) (hmid : ∀ c ∈ mid, ansiEnds c = false) (hzero : 0 ∉ mid)
    (hrest : ∀ c ∈ rest.head?, ansiEnds c = true) (hfuel : mid.length < fuel) :
    ansiEnd (pre ++ (mid ++ rest) ++ [0]) fuel pre.length = some (pre.length + mid.length) := by
  induction mid generalizing pre fuel with
  | nil =>
    obtain ⟨fuel, rfl⟩ : ∃ f, fuel = f + 1 := ⟨fuel - 1, by omega⟩
    cases rest with
    | nil =>
      rw [List.nil_append, List.append_nil, ansiEnd, List.getElem?_append_right le_rfl, Nat.sub_self]
      rfl
    | cons e rest =>
      have he : ¬(e ≠ 0 ∧ e ≠ 74 ∧ e ≠ 109 ∧ e ≠ 72) := by
        rintro ⟨-, hJ, hm, hH⟩
        exact (of_decide_eq_true (hrest e rfl)).elim hJ fun h => h.elim hm hH
      rw [List.nil_append, ansiEnd, getElem?_front, Option.bind_some, if_neg he]
      rfl
  | cons c mid ih =>
    obtain ⟨fuel, rfl⟩ : ∃ f, fuel = f + 1 := ⟨fuel - 1, by omega⟩
    rw [List.length_cons] at hfuel ⊢
    have hc := of_decide_eq_false (hmid c List.mem_cons_self)
    have hgo : c ≠ 0 ∧ c ≠ 74 ∧ c ≠ 109 ∧ c ≠ 72 := by
      refine ⟨?_, fun h => hc (Or.inl h), fun h => hc (Or.inr (Or.inl h)),
        fun h => hc (Or.inr (Or.inr h))⟩
      rintro rfl
      exact hzero List.mem_cons_self
    have hnext := ih (pre ++ [c]) fuel (fun d hd => hmid d (List.mem_cons_of_mem _ hd))
      (fun h => hzero (List.mem_cons_of_mem _ h)) (by omega)
    rw [List.length_append, List.length_singleton, List.append_assoc pre, List.singleton_append]
      at hnext
    rw [List.cons_append, ansiEnd, getElem?_front, Option.bind_some, if_pos hgo, hnext]
    congr 1
    omega

/-- A text ends a sequence, or it does not. -/
theorem exists_ansiEnd (s : List u8) :
    (∀ c ∈ s, ansiEnds c = false) ∨ ∃ mid e rest, s = mid ++ e :: rest ∧
      (∀ c ∈ mid, ansiEnds c = false) ∧ ansiEnds e = true := by
  induction s with
  | nil => exact Or.inl fun c hc => by cases hc
  | cons c s ih =>
    by_cases hc : ansiEnds c = true
    · exact Or.inr ⟨[], c, s, rfl, fun d hd => (by cases hd), hc⟩
    · rw [Bool.not_eq_true] at hc
      rcases ih with hs | ⟨mid, e, rest, rfl, hmid, he⟩
      · exact Or.inl (List.forall_mem_cons.mpr ⟨hc, hs⟩)
      · exact Or.inr ⟨c :: mid, e, rest, rfl, List.forall_mem_cons.mpr ⟨hc, hmid⟩, he⟩

theorem ansiStarts_iff : ansiStarts c s = true ↔ c = 0x1b ∧ s.head? = some 91 := decide_eq_true_iff

/-- A character that starts no sequence. -/
theorem ansiItem_char (pre : List u8) (len : ℤ) (h : ansiStarts c s = false) :
    ansiItem (pre ++ c :: s ++ [0]) pre.length len = some (pre.length, len + 1) := by
  have hnext : (pre ++ c :: s ++ [0])[pre.length + 1]? = some (s.headD 0) := by
    rw [List.append_assoc, List.getElem?_append_right (by omega), Nat.add_sub_cancel_left]
    cases s <;> rfl
  rw [ansiItem, getElem?_front, Option.bind_some, hnext]
  split_ifs with hc
  · rw [Option.bind_some, if_neg fun hd => ?_]
    have hs : s.head? = some 91 := by
      cases s with
      | nil => cases hd
      | cons d s => exact congrArg some hd
    rw [ansiStarts_iff.mpr ⟨hc, hs⟩] at h
    cases h
  · rfl

/-- A sequence, or the start of one. -/
theorem ansiItem_seq (pre rest : List u8) (len : ℤ) (h : ansiStarts c (mid ++ rest) = true)
    (hmid : ∀ c ∈ mid, ansiEnds c = false) (hzero : 0 ∉ mid)
    (hrest : ∀ c ∈ rest.head?, ansiEnds c = true) :
    ansiItem (pre ++ c :: (mid ++ rest) ++ [0]) pre.length len =
      some (pre.length + 1 + mid.length, len) := by
  obtain ⟨hc, hbracket⟩ := ansiStarts_iff.mp h
  have hnext : (pre ++ c :: (mid ++ rest) ++ [0])[pre.length + 1]? = some 91 := by
    obtain ⟨t, ht⟩ := List.head?_eq_some_iff.mp hbracket
    rw [List.append_assoc, List.getElem?_append_right (by omega), Nat.add_sub_cancel_left, ht]
    rfl
  have hend := ansiEnd_eq (pre ++ [c]) rest (pre ++ c :: (mid ++ rest) ++ [0]).length hmid hzero hrest
    (by simp; omega)
  have hlen : (pre ++ [c]).length = pre.length + 1 := by simp
  rw [hlen, List.append_assoc pre, List.singleton_append] at hend
  rw [ansiItem, getElem?_front, Option.bind_some, if_pos hc, hnext, Option.bind_some, if_pos rfl,
    hend]
  rfl

/-- A sequence with its end. -/
theorem ansiItem_whole (pre : List u8) (len : ℤ) (hstart : ansiStarts c (mid ++ e :: rest) = true)
    (hmid : ∀ c ∈ mid, ansiEnds c = false) (he : ansiEnds e = true) (hzero : 0 ∉ mid ++ e :: rest) :
    ansiItem (pre ++ c :: (mid ++ e :: rest) ++ [0]) pre.length len =
      some (pre.length + 1 + mid.length, len) :=
  ansiItem_seq pre _ len hstart hmid (fun h => hzero (List.mem_append_left _ h))
    fun _ hd => Option.some.inj hd ▸ he

/-! ## Inside of a sequence -/

theorem ansiWhole_seq (hmid : ∀ c ∈ mid, ansiEnds c = false) (s : List u8) :
    ansiWhole true (mid ++ s) = ansiWhole true s := by
  induction mid with
  | nil => rfl
  | cons c mid ih =>
    rw [List.cons_append, ansiWhole, hmid c List.mem_cons_self]
    exact ih fun d hd => hmid d (List.mem_cons_of_mem _ hd)

theorem ansiVisible_seq (hmid : ∀ c ∈ mid, ansiEnds c = false) (s : List u8) :
    ansiVisible true (mid ++ s) = ansiVisible true s := by
  induction mid with
  | nil => rfl
  | cons c mid ih =>
    rw [List.cons_append, ansiVisible, hmid c List.mem_cons_self]
    exact ih fun d hd => hmid d (List.mem_cons_of_mem _ hd)

theorem ansiColumn_seq (hmid : ∀ c ∈ mid, ansiEnds c = false) (n : ℤ) (s : List u8) :
    ansiColumn true n (mid ++ s) = mid.length + ansiColumn true n s := by
  induction mid with
  | nil => exact (Nat.zero_add _).symm
  | cons c mid ih =>
    have hrest := ih fun d hd => hmid d (List.mem_cons_of_mem _ hd)
    rw [List.cons_append, ansiColumn, hmid c List.mem_cons_self, Bool.not_false, hrest,
      List.length_cons]
    omega

/-! ## The loops -/

/-- A turn of `ansistrlen`. -/
theorem ansistrlenLoop_item {len' : ℤ} (fuel : ℕ) (item next : List u8) (hc : c ≠ 0)
    (hitem : ansiItem (pre ++ c :: s ++ [0]) pre.length len = some (i, len'))
    (hs : c :: s = item ++ next) (hi : i + 1 = (pre ++ item).length) :
    ansistrlenLoop (pre ++ c :: s ++ [0]) (fuel + 1) pre.length len =
      ansistrlenLoop (pre ++ item ++ next ++ [0]) fuel (pre ++ item).length len' := by
  rw [ansistrlenLoop, getElem?_front, Option.bind_some, if_neg hc, hitem, Option.bind_some]
  dsimp only
  rw [hi, hs, List.append_assoc pre item]

/-- The loop over a sequence that is cut off stops at the NUL, and the step is over it. -/
theorem ansistrlenLoop_cut (pre : List u8) (len : ℤ) (fuel : ℕ) (hc : c ≠ 0) (hs : 0 ∉ s)
    (hstart : ansiStarts c s = true) (hcut : ∀ c ∈ s, ansiEnds c = false) :
    ansistrlenLoop (pre ++ c :: s ++ [0]) (fuel + 1) pre.length len = none := by
  have hitem := ansiItem_seq pre [] len (by simpa using hstart) hcut hs fun e he => by cases he
  have hout : ansistrlenLoop (pre ++ c :: s ++ [0]) fuel (pre.length + 1 + s.length + 1) len =
      none := by
    cases fuel with
    | zero => rfl
    | succ fuel =>
      rw [ansistrlenLoop, List.getElem?_eq_none (by simp; omega)]
      rfl
  rw [List.append_nil] at hitem
  rw [ansistrlenLoop, getElem?_front, Option.bind_some, if_neg hc, hitem]
  exact hout

/-- **The length counted**, if no sequence is cut off. -/
theorem ansistrlenLoop_eq (pre : List u8) (len : ℤ) (hzero : 0 ∉ s) (hfuel : s.length < fuel) :
    ansistrlenLoop (pre ++ s ++ [0]) fuel pre.length len =
      if ansiWhole false s then some (len + ansiVisible false s) else none := by
  induction hlen : s.length using Nat.strong_induction_on generalizing s pre len fuel with
  | _ k ih =>
    obtain ⟨fuel, rfl⟩ : ∃ f, fuel = f + 1 := ⟨fuel - 1, by omega⟩
    cases s with
    | nil =>
      rw [List.append_nil, ansistrlenLoop, List.getElem?_append_right le_rfl, Nat.sub_self]
      simp [ansiWhole, ansiVisible]
    | cons c s =>
      obtain ⟨hc, hs⟩ := not_or.mp (List.mem_cons.not.mp hzero)
      rw [List.length_cons] at hfuel hlen
      cases hstart : ansiStarts c s with
      | false =>
        have hturn := ansistrlenLoop_item fuel [c] s (Ne.symm hc)
          (ansiItem_char pre len hstart) rfl (by simp)
        rw [hturn, ih s.length (by omega) _ _ hs (by omega) rfl, ansiWhole, ansiVisible, hstart,
          if_neg Bool.false_ne_true, Nat.cast_add, Nat.cast_one]
        congr 2
        omega
      | true =>
        rw [ansiWhole, ansiVisible, hstart, if_pos rfl, Nat.add_zero]
        rcases exists_ansiEnd s with hcut | ⟨mid, e, rest, rfl, hmid, he⟩
        · have hnone : ansiWhole true s = false := by
            have hnil := ansiWhole_seq hcut []
            rwa [List.append_nil] at hnil
          rw [hnone, if_neg Bool.false_ne_true]
          exact ansistrlenLoop_cut pre len fuel (Ne.symm hc) hs hstart hcut
        · have hrest : 0 ∉ rest := fun h => hs (List.mem_append_right _ (List.mem_cons_of_mem _ h))
          have hturn := ansistrlenLoop_item fuel (c :: (mid ++ [e])) rest (Ne.symm hc)
            (ansiItem_whole pre len hstart hmid he hs) (by simp) (by simp; omega)
          have hsize : (mid ++ e :: rest).length = mid.length + rest.length + 1 := by
            simp
            omega
          rw [hturn, ih rest.length (by omega) _ _ hrest (by omega) rfl, ansiWhole_seq hmid,
            ansiVisible_seq hmid, ansiWhole, ansiVisible, he, Bool.not_true, Nat.add_zero]

/-- A turn of `ansistrchrn` in front of the place. -/
theorem ansistrchrnLoop_item {len' : ℤ} (fuel : ℕ) (item next : List u8) (hc : c ≠ 0)
    (hn : n ≠ len) (hitem : ansiItem (pre ++ c :: s ++ [0]) pre.length len = some (i, len'))
    (hs : c :: s = item ++ next) (hi : i + 1 = (pre ++ item).length) :
    ansistrchrnLoop (pre ++ c :: s ++ [0]) n (fuel + 1) pre.length len =
      ansistrchrnLoop (pre ++ item ++ next ++ [0]) n fuel (pre ++ item).length len' := by
  rw [ansistrchrnLoop, getElem?_front, Option.bind_some, if_neg hc, if_neg hn, hitem,
    Option.bind_some]
  dsimp only
  rw [hi, hs, List.append_assoc pre item]

/-- **The place found**, if no sequence is cut off. -/
theorem ansistrchrnLoop_eq (pre : List u8) (n len : ℤ) (hzero : 0 ∉ s)
    (hwhole : ansiWhole false s = true) (hfuel : s.length < fuel) :
    ansistrchrnLoop (pre ++ s ++ [0]) n fuel pre.length len =
      some (pre.length + ansiColumn false (n - len) s) := by
  induction hlen : s.length using Nat.strong_induction_on generalizing s pre len fuel with
  | _ k ih =>
    obtain ⟨fuel, rfl⟩ : ∃ f, fuel = f + 1 := ⟨fuel - 1, by omega⟩
    cases s with
    | nil =>
      rw [List.append_nil, ansistrchrnLoop, List.getElem?_append_right le_rfl, Nat.sub_self]
      rfl
    | cons c s =>
      obtain ⟨hc, hs⟩ := not_or.mp (List.mem_cons.not.mp hzero)
      rw [List.length_cons] at hfuel hlen
      rw [ansiColumn]
      by_cases hn : n = len
      · rw [ansistrchrnLoop, getElem?_front, Option.bind_some, if_neg (Ne.symm hc), if_pos hn,
          if_pos (by omega)]
        rfl
      · rw [if_neg (by omega)]
        rw [ansiWhole] at hwhole
        cases hstart : ansiStarts c s with
        | false =>
          rw [hstart] at hwhole
          have hturn := ansistrchrnLoop_item fuel [c] s (Ne.symm hc) hn
            (ansiItem_char pre len hstart) rfl (by simp)
          rw [hturn, ih s.length (by omega) _ _ hs hwhole (by omega) rfl,
            if_neg Bool.false_ne_true, List.length_append, List.length_singleton, Int.sub_sub]
          congr 1
          omega
        | true =>
          rw [hstart] at hwhole
          rw [if_pos rfl]
          rcases exists_ansiEnd s with hcut | ⟨mid, e, rest, rfl, hmid, he⟩
          · have hnil := ansiWhole_seq hcut []
            rw [List.append_nil, hwhole] at hnil
            cases hnil
          · have hrest : 0 ∉ rest := fun h => hs (List.mem_append_right _ (List.mem_cons_of_mem _ h))
            have hturn := ansistrchrnLoop_item fuel (c :: (mid ++ [e])) rest (Ne.symm hc) hn
              (ansiItem_whole pre len hstart hmid he hs) (by simp) (by simp; omega)
            have hsize : (mid ++ e :: rest).length = mid.length + rest.length + 1 := by
              simp
              omega
            rw [ansiWhole_seq hmid, ansiWhole, he, Bool.not_true] at hwhole
            rw [hturn, ih rest.length (by omega) _ _ hrest hwhole (by omega) rfl,
              ansiColumn_seq hmid, ansiColumn, he, Bool.not_true]
            congr 1
            simp
            omega

/-! ## Where the place is -/

theorem ansiColumn_le (inside : Bool) (n : ℤ) (s : List u8) : ansiColumn inside n s ≤ s.length := by
  induction s generalizing inside n with
  | nil => cases inside <;> exact Nat.le_refl 0
  | cons c s ih =>
    rw [List.length_cons]
    cases inside with
    | true => exact Nat.succ_le_succ (ih _ _)
    | false =>
      rw [ansiColumn]
      split_ifs
      · exact Nat.zero_le _
      · exact Nat.succ_le_succ (ih _ _)
      · exact Nat.succ_le_succ (ih _ _)

/-- What is in front of the place starts a sequence only where the text does. -/
theorem ansiStarts_take (c : u8) (n : ℤ) (s : List u8) :
    ansiStarts c (s.take (ansiColumn (ansiStarts c s) n s)) = ansiStarts c s := by
  cases hstart : ansiStarts c s with
  | true =>
    obtain ⟨hc, hs⟩ := ansiStarts_iff.mp hstart
    obtain ⟨t, rfl⟩ := List.head?_eq_some_iff.mp hs
    exact ansiStarts_iff.mpr ⟨hc, rfl⟩
  | false =>
    refine Bool.eq_false_iff.mpr fun h => ?_
    obtain ⟨hc, hs⟩ := ansiStarts_iff.mp h
    rw [List.head?_take] at hs
    split_ifs at hs
    rw [ansiStarts_iff.mpr ⟨hc, hs⟩] at hstart
    cases hstart

/-- **The text up to the place**: it ends in no sequence, and has so many
characters to be seen. -/
theorem ansi_take_column (hn : 0 ≤ n) (hwhole : ansiWhole inside s = true) :
    ansiWhole inside (s.take (ansiColumn inside n s)) = true ∧
      (ansiVisible inside (s.take (ansiColumn inside n s)) : ℤ) = min n (ansiVisible inside s) := by
  induction s generalizing inside n with
  | nil =>
    have hout : inside = false := by simpa [ansiWhole] using hwhole
    subst hout
    exact ⟨rfl, (Int.min_eq_right hn).symm⟩
  | cons c s ih =>
    cases inside with
    | true => exact ih hn hwhole
    | false =>
      rw [ansiColumn]
      by_cases hzero : n = 0
      · subst hzero
        have hnone : ansiVisible false (List.take 0 (c :: s)) = 0 := rfl
        refine ⟨rfl, ?_⟩
        rw [if_pos rfl, hnone]
        omega
      · rw [if_neg hzero, List.take_succ_cons, ansiWhole, ansiVisible, ansiVisible, ansiStarts_take]
        rw [ansiWhole] at hwhole
        cases hstart : ansiStarts c s with
        | true =>
          rw [hstart] at hwhole
          exact ih hn hwhole
        | false =>
          rw [hstart] at hwhole
          obtain ⟨hrest, hcount⟩ := ih (n := n - 1) (by omega) hwhole
          refine ⟨hrest, ?_⟩
          rw [if_neg Bool.false_ne_true]
          push_cast
          rw [hcount]
          omega

/-! ## The result -/

theorem ansistrlen_eq (hzero : 0 ∉ s) :
    ansistrlen s = if ansiWhole false s then some (ansiVisible false s : ℤ) else none := by
  have hloop := ansistrlenLoop_eq [] 0 hzero (Nat.lt_succ_self s.length)
  rw [Int.zero_add] at hloop
  exact hloop

theorem ansistrchrn_eq (n : ℤ) (hzero : 0 ∉ s) (hwhole : ansiWhole false s = true) :
    ansistrchrn s n = some (ansiColumn false n s) := by
  have hloop := ansistrchrnLoop_eq [] n 0 hzero hwhole (Nat.lt_succ_self s.length)
  rw [Int.sub_zero, List.length_nil, Nat.zero_add] at hloop
  exact hloop

/-- **When the two agree**: the text up to the place found has as many
characters to be seen as asked for, or all of them, and nothing outside of the
text is looked at, if and only if no sequence is cut off by the end of the text
and the number is not below zero. -/
theorem ansi_agree_iff (str : CText) (n : ℤ) :
    AnsiAgree str.1 n ↔ ansiWhole false str.1 = true ∧ 0 ≤ n := by
  obtain ⟨s, hzero⟩ := str
  have htake : ∀ k, 0 ∉ s.take k := fun k h => hzero (List.mem_of_mem_take h)
  constructor
  · rintro ⟨len, k, hlen, hk, -, hfront⟩
    rw [ansistrlen_eq hzero] at hlen
    split_ifs at hlen with hwhole
    refine ⟨hwhole, ?_⟩
    obtain rfl := Option.some.inj hlen
    rw [ansistrlen_eq (htake k)] at hfront
    split_ifs at hfront
    have := Option.some.inj hfront
    omega
  · rintro ⟨hwhole, hn⟩
    obtain ⟨hfront, hcount⟩ := ansi_take_column hn hwhole
    refine ⟨_, _, (ansistrlen_eq hzero).trans (if_pos hwhole), ansistrchrn_eq n hzero hwhole,
      ansiColumn_le _ _ _, ?_⟩
    rw [ansistrlen_eq (htake _), if_pos hfront, hcount]

/-- `ESC [` and nothing behind it. -/
theorem ansi_cut_off : ¬AnsiAgree [0x1b, 91] 0 := by
  have hout : ansistrlen [0x1b, 91] = none := by decide
  rintro ⟨len, k, hlen, -⟩
  rw [hout] at hlen
  cases hlen

end Radare
