import Radare.Common.Overlay
import Radare.Common.Tries
import Radare.Cons.Buffer
import Radare.Rio.Buffers
/-!
# Text replaced in its buffer

`str_replace` goes through its buffer with a matcher that does not begin
again inside of an attempt. At the end of each word that it finds, it steps
back to the character in front of the word. A text that is longer is put down
one character further, over the word, once the rest is moved up; one that is
not longer is put down on that character, and the last one of the word stays. What is
behind is moved down with `strcpy` then, which is not defined where that is longer
than what is taken out (`MovesApart`).

The buffer is got anew where the string is to be longer than the number given
for the size of it; what is moved up then is as much behind the NUL as the
string grows by.
-/

namespace Radare

open Common

/-! ## The code -/

/-- The variables of `str_replace`: the buffer, the places in it and in
`from`, the length of the string, and the size given for it. -/
structure Replacing where
  ostr : List u8
  str : ℕ
  frm : ℕ
  olen : ℕ
  strLen : ℕ

/-- The loop that moves characters up, of `n` of them from the last one down. -/
def moveUp (ftdelta str : ℕ) : ℕ → List u8 → Option (List u8)
  | 0, mem => some mem
  | n + 1, mem =>
    mem[str + n]?.bind fun c => (store mem (str + n + ftdelta) c).bind (moveUp ftdelta str n)

/-- The word that ends at `str` replaced by a text that is no longer. -/
def replaceDown (ofrom toText : List u8) (s : Replacing) : Option Replacing :=
  (strcpyWithin s.ostr (s.str + toText.length - ofrom.length) s.str).bind fun mem =>
    (memcpyAt mem ((s.str : ℤ) - ofrom.length) toText toText.length).map fun mem =>
      { s with ostr := mem, str := s.str + toText.length + 1 - ofrom.length, frm := 0 }

/-- The buffer for a longer string. -/
def growBuffer (env : ConsEnv) (ftdelta : ℕ) (s : Replacing) : Replacing :=
  let olen := s.olen + ftdelta
  if olen > s.strLen then
    { s with ostr := resized env s.ostr (olen + 4096), olen := olen, strLen := olen + 4096 }
  else { s with olen := olen }

/-- The word that ends at `str` replaced by a longer text. -/
def replaceUp (env : ConsEnv) (ofrom toText : List u8) (s : Replacing) : Option Replacing :=
  let s := growBuffer env (toText.length - ofrom.length) s
  let start := s.str + 1 - ofrom.length
  (moveUp (toText.length - ofrom.length) start (s.olen + 1 - start) s.ostr).bind fun mem =>
    (memcpyAt mem start toText toText.length).map fun mem =>
      { s with ostr := mem, str := start + toText.length, frm := 0 }

/-- The word that ends at `str` replaced. -/
def replaceWord (env : ConsEnv) (ofrom toText : List u8) (s : Replacing) : Option Replacing :=
  if toText.length ≤ ofrom.length then replaceDown ofrom toText s else replaceUp env ofrom toText s

/-- The loop of `str_replace`. A turn leaves less of the string in front of
it. -/
def strReplaceLoop (env : ConsEnv) (ofrom toText : List u8) : ℕ → Replacing → Option (List u8)
  | 0, _ => none
  | fuel + 1, s =>
    s.ostr[s.str]?.bind fun c =>
      if c = 0 then some s.ostr
      else
        let frm := if ofrom[s.frm]? = some c then s.frm + 1 else 0
        if frm = ofrom.length then
          (replaceWord env ofrom toText s).bind (strReplaceLoop env ofrom toText fuel)
        else strReplaceLoop env ofrom toText fuel { s with str := s.str + 1, frm := frm }

/-- `str_replace`, of a string with more of its buffer behind it: the string
returned. -/
def strReplace (env : ConsEnv) (text ofrom toText junk : List u8) (strLen : ℕ) : Option (List u8) :=
  (strReplaceLoop env ofrom toText (text.length + 1)
    ⟨text ++ 0 :: junk, 0, 0, text.length, strLen⟩).map cstr

/-! ## What it is for -/

/-- The text with a mark for each occurrence of the word. -/
def wordMarked (ofrom text : List u8) : List (Option u8) :=
  marked ofrom.isPrefixOf ofrom.length 0 text

/-- Each occurrence is replaced, and nothing outside of the buffer is looked
at. -/
def Replaces (env : ConsEnv) (text ofrom toText : CText) (junk : List u8) (strLen : ℕ) : Prop :=
  strReplace env text.1 ofrom.1 toText.1 junk strLen =
    some (rendered toText.1 (wordMarked ofrom.1 text.1))

/-! ## When it does it -/

/-- No word begins inside of an attempt of the matcher that breaks off. -/
def FindsAll (ofrom text : List u8) : Prop := Unbroken ofrom 0 text

/-- There is room to move the rest up by `d` at each mark, in a buffer of size
`cap`, which is got anew where the string is longer than the size given. -/
def RoomFor (d : ℕ) : List (Option u8) → ℕ → ℕ → ℕ → Prop
  | [], _, _, _ => True
  | some _ :: p, olen, cap, strLen => RoomFor d p olen cap strLen
  | none :: p, olen, cap, strLen =>
    if olen + d > strLen then
      d < 4096 ∧ RoomFor d p (olen + d) (olen + d + 4096) (olen + d + 4096)
    else olen + d + d < cap ∧ RoomFor d p (olen + d) cap strLen

/-- There is room for the words of the matcher, in the buffer of a text. -/
def HasRoom (text ofrom toText junk : List u8) (strLen : ℕ) : Prop :=
  RoomFor (toText.length - ofrom.length) (tries ofrom 0 text) text.length
    (text.length + 1 + junk.length) strLen

/-- What is behind each mark is shorter than what is taken out, so that it is not
moved down over itself. -/
def MovesApart (ofrom toText : List u8) : List (Option u8) → Prop
  | [] => True
  | some _ :: p => MovesApart ofrom toText p
  | none :: p =>
    (rendered ofrom p).length + 1 + toText.length < ofrom.length ∧ MovesApart ofrom toText p

/-- What makes the result right. If the text is longer than the word, there is
room; if it is not, the word is longer by more than what is behind it, the character
in front of each word is the last one of the word, and the text is made of it. Where
not all words are found, what comes out is the same nevertheless. -/
def ReplacesRight (text ofrom toText junk : List u8) (strLen : ℕ) : Prop :=
  if ofrom.length < toText.length then
    HasRoom text ofrom toText junk strLen ∧ (FindsAll ofrom text ∨
      rendered toText (tries ofrom 0 text) = rendered toText (wordMarked ofrom text))
  else
    MovesApart ofrom toText (tries ofrom 0 text) ∧
      (FindsAll ofrom text ∧ Fronted (ofrom.getLastD 0) toText none (wordMarked ofrom text) ∨
        ¬FindsAll ofrom text ∧ (slidden (ofrom.getLastD 0) (tries ofrom 0 text)).map
          (rendered toText) = some (rendered toText (wordMarked ofrom text)))

variable {env : ConsEnv} {ofrom toText done rest junk mem front mid back w o : List u8}
variable {s : Replacing} {c e x : u8} {k n d olen strLen fuel start : ℕ}

/-! ## One character -/

/-- The variables where the matcher has the first `k` characters of the word,
behind what is done. -/
def replacingAt (ofrom done rest junk : List u8) (k olen strLen : ℕ) : Replacing :=
  ⟨done ++ ofrom.take k ++ rest ++ 0 :: junk, done.length + k, k, olen, strLen⟩

theorem getElem?_replacingAt (hk : k ≤ ofrom.length) (done l : List u8) (c : u8) :
    (done ++ ofrom.take k ++ c :: l)[done.length + k]? = some c := by
  have hlen : (done ++ ofrom.take k).length = done.length + k := by
    rw [List.length_append, List.length_take_of_le hk]
  rw [← hlen, List.getElem?_append_right le_rfl, Nat.sub_self]
  rfl

theorem strReplaceLoop_end (hk : k ≤ ofrom.length) :
    strReplaceLoop env ofrom toText (fuel + 1) (replacingAt ofrom done [] junk k olen strLen) =
      some (done ++ ofrom.take k ++ 0 :: junk) := by
  have hget := getElem?_replacingAt hk done junk 0
  rw [strReplaceLoop]
  dsimp only [replacingAt]
  rw [List.append_nil, hget, Option.bind_some, if_pos rfl]

/-- A turn that is not at the end. -/
theorem strReplaceLoop_turn (hk : k ≤ ofrom.length) (hc : c ≠ 0)
    (hs : s = replacingAt ofrom done (c :: rest) junk k olen strLen) :
    strReplaceLoop env ofrom toText (fuel + 1) s =
      if (if ofrom[k]? = some c then k + 1 else 0) = ofrom.length then
        (replaceWord env ofrom toText s).bind (strReplaceLoop env ofrom toText fuel)
      else strReplaceLoop env ofrom toText fuel
        { s with str := s.str + 1, frm := if ofrom[k]? = some c then k + 1 else 0 } := by
  have hget := getElem?_replacingAt hk done (rest ++ 0 :: junk) c
  have hmem : s.ostr[s.str]? = some c := by
    rw [hs, replacingAt, List.append_assoc, List.cons_append, hget]
  have hfrm : s.frm = k := by rw [hs, replacingAt]
  rw [strReplaceLoop, hmem, Option.bind_some, if_neg hc, hfrm]

/-- The next character of the word. -/
theorem strReplaceLoop_more (hc : c ≠ 0) (hnext : ofrom[k]? = some c)
    (hlt : k + 1 < ofrom.length) :
    strReplaceLoop env ofrom toText (fuel + 1)
        (replacingAt ofrom done (c :: rest) junk k olen strLen) =
      strReplaceLoop env ofrom toText fuel
        (replacingAt ofrom done rest junk (k + 1) olen strLen) := by
  rw [strReplaceLoop_turn (by omega) hc rfl, if_pos hnext, if_neg hlt.ne]
  congr 1
  unfold replacingAt
  rw [take_succ_of_getElem? hnext]
  simp [Nat.add_assoc]

/-- Another one: what the matcher had is done, and so is the character. -/
theorem strReplaceLoop_anew (hk : k < ofrom.length) (hc : c ≠ 0) (hnext : ofrom[k]? ≠ some c) :
    strReplaceLoop env ofrom toText (fuel + 1)
        (replacingAt ofrom done (c :: rest) junk k olen strLen) =
      strReplaceLoop env ofrom toText fuel
        (replacingAt ofrom (done ++ ofrom.take k ++ [c]) rest junk 0 olen strLen) := by
  have hlen : (ofrom.take k).length = k := List.length_take_of_le hk.le
  rw [strReplaceLoop_turn hk.le hc rfl, if_neg hnext, if_neg (by omega)]
  congr 1
  unfold replacingAt
  simp [hlen, Nat.add_assoc]

/-- The last one of the word. -/
theorem strReplaceLoop_found (hc : c ≠ 0) (hnext : ofrom[k]? = some c)
    (hlast : k + 1 = ofrom.length) :
    strReplaceLoop env ofrom toText (fuel + 1)
        (replacingAt ofrom done (c :: rest) junk k olen strLen) =
      (replaceWord env ofrom toText (replacingAt ofrom done (c :: rest) junk k olen strLen)).bind
        (strReplaceLoop env ofrom toText fuel) := by
  rw [strReplaceLoop_turn (by omega) hc rfl, if_pos hnext, if_pos hlast]

/-- The word is whole with the character. -/
theorem replacingAt_found (hnext : ofrom[k]? = some c) (hlast : k + 1 = ofrom.length) :
    replacingAt ofrom done (c :: rest) junk k olen strLen =
      ⟨done ++ ofrom ++ rest ++ 0 :: junk, done.length + k, k, olen, strLen⟩ := by
  have hword : done ++ ofrom = done ++ ofrom.take k ++ [c] := by
    rw [List.append_assoc, ← take_succ_of_getElem? hnext, hlast, List.take_length]
  unfold replacingAt
  rw [hword, List.append_assoc _ [c], List.singleton_append]

/-- A text copied over one of its length. -/
theorem memcpyAt_over (front back : List u8) (hlen : mid.length = toText.length) :
    memcpyAt (front ++ mid ++ back) front.length toText toText.length =
      some (front ++ toText ++ back) := by
  have hdrop : (front ++ mid ++ back).drop (front.length + toText.length) = back := by
    rw [← hlen, ← List.length_append, List.drop_left]
  have htake : (front ++ mid ++ back).take front.length = front := by
    rw [List.append_assoc, List.take_left]
  rw [memcpyAt_eq _ _ (by simp; omega) le_rfl, hdrop, htake, List.take_length]

/-! ## A text that is not longer -/

/-- There is no character in front of the first one. -/
theorem replaceDown_front (hlast : k + 1 = ofrom.length) :
    replaceDown ofrom toText (replacingAt ofrom [] (c :: rest) junk k olen strLen) = none := by
  have hout : ∀ mem, memcpyAt mem ((([] : List u8).length + k : ℕ) - (ofrom.length : ℤ)) toText
      toText.length = none := by
    intro mem
    unfold memcpyAt
    rw [List.length_nil]
    exact if_neg fun h => by omega
  refine Option.bind_eq_none_iff.mpr fun mem _ => ?_
  dsimp only [replacingAt]
  rw [hout, Option.map_none]

/-- **The word and the character in front** become the text and the last
character of the word. -/
theorem replaceDown_eq (o junk : List u8) (x : u8) (olen strLen : ℕ)
    (hapart : rest.length + 1 + toText.length < ofrom.length) (hlast : k + 1 = ofrom.length)
    (hc : c ≠ 0) (hrest : 0 ∉ rest) :
    ∃ junk', replaceDown ofrom toText
        (replacingAt ofrom (o ++ [x]) (c :: rest) junk k olen strLen) =
      some (replacingAt ofrom (o ++ toText ++ [c]) rest junk' 0 olen strLen) := by
  have hzero : 0 ∉ c :: rest := fun h => (List.mem_cons.mp h).elim (fun h => hc h.symm) hrest
  have hword : (ofrom.take k).length = k := List.length_take_of_le (by omega)
  -- what the text goes over, and what is left between it and the last character
  obtain ⟨gone, between, hsplit, hgone⟩ : ∃ gone between,
      [x] ++ ofrom.take k = gone ++ between ∧ gone.length = toText.length :=
    ⟨_, _, (List.take_append_drop toText.length _).symm, by simp; omega⟩
  have hlen := congrArg List.length hsplit
  simp only [List.length_append, List.length_singleton, hword] at hlen
  have hbetween : (c :: rest).length < between.length := by
    rw [List.length_cons]
    omega
  obtain ⟨junk', hcopy⟩ := strcpyWithin_eq (o ++ gone) between junk hzero hbetween
  have hmem : o ++ [x] ++ ofrom.take k ++ c :: rest ++ 0 :: junk =
      o ++ gone ++ between ++ c :: rest ++ 0 :: junk := by
    rw [List.append_assoc o, hsplit, ← List.append_assoc o]
  have hdst : (o ++ [x]).length + k + toText.length - ofrom.length = (o ++ gone).length := by
    simp only [List.length_append, List.length_singleton]
    omega
  have hsrc : (o ++ [x]).length + k = (o ++ gone).length + between.length := by
    simp only [List.length_append, List.length_singleton]
    omega
  have hstart : (((o ++ [x]).length + k : ℕ) : ℤ) - ofrom.length = o.length := by
    rw [← hlast, List.length_append, List.length_singleton]
    push_cast
    omega
  have hput := memcpyAt_over o (c :: rest ++ 0 :: junk') hgone
  refine ⟨junk', ?_⟩
  unfold replaceDown
  dsimp only [replacingAt]
  rw [hdst, hmem, hstart, hsrc, hcopy, Option.bind_some, List.append_assoc _ (c :: rest), hput]
  simp
  omega

/-- With more behind the word it has no result. -/
theorem replaceDown_over (o junk : List u8) (x : u8) (olen strLen : ℕ)
    (hlast : k + 1 = ofrom.length) (hc : c ≠ 0) (hrest : 0 ∉ rest)
    (hover : ¬rest.length + 1 + toText.length < ofrom.length) :
    replaceDown ofrom toText (replacingAt ofrom (o ++ [x]) (c :: rest) junk k olen strLen) =
      none := by
  have hzero : 0 ∉ c :: rest := fun h => (List.mem_cons.mp h).elim (fun h => hc h.symm) hrest
  have hword : (ofrom.take k).length = k := List.length_take_of_le (by omega)
  have hdrop : (o ++ [x] ++ ofrom.take k ++ c :: rest ++ 0 :: junk).drop ((o ++ [x]).length + k) =
      c :: rest ++ 0 :: junk := by
    rw [List.append_assoc _ (c :: rest), ← hword, ← List.length_append, hword, List.drop_left]
  have hstuck : strcpyWithin (o ++ [x] ++ ofrom.take k ++ c :: rest ++ 0 :: junk)
      ((o ++ [x]).length + k + toText.length - ofrom.length) ((o ++ [x]).length + k) = none := by
    refine if_neg fun h => ?_
    rw [hdrop, cstr_front hzero, List.length_cons, List.length_append, List.length_singleton] at h
    omega
  unfold replaceDown
  dsimp only [replacingAt]
  rw [hstuck, Option.bind_none]

theorem zero_not_mem_take (hdone : 0 ∉ done) (hofrom : 0 ∉ ofrom) : 0 ∉ done ++ ofrom.take k :=
  fun hmem => (List.mem_append.mp hmem).elim hdone fun h => hofrom (List.mem_of_mem_take h)

theorem zero_not_mem_done (hdone : 0 ∉ done) (hofrom : 0 ∉ ofrom) (hc : 0 ≠ c) :
    0 ∉ done ++ ofrom.take k ++ [c] := by
  intro hmem
  rcases List.mem_append.mp hmem with hmem | hmem
  · exact zero_not_mem_take hdone hofrom hmem
  · exact hc (List.mem_singleton.mp hmem)

theorem movesApart_map_some (l : List u8) (p : List (Option u8)) :
    MovesApart ofrom toText (l.map some ++ p) ↔ MovesApart ofrom toText p := by
  induction l with
  | nil => rfl
  | cons c l ih => exact ih

/-- **The loop** slides the marks of the matcher, where nothing is moved over itself. -/
theorem strReplaceLoop_down {out : List u8} (hle : toText.length ≤ ofrom.length) (hto : 0 ∉ toText)
    (hofrom : 0 ∉ ofrom) (hlast : ofrom.getLast? = some e) (hdone : 0 ∉ done) (hrest : 0 ∉ rest)
    (hk : k < ofrom.length) (hfuel : rest.length < fuel) :
    (strReplaceLoop env ofrom toText fuel
        (replacingAt ofrom done rest junk k olen strLen)).map cstr = some out ↔
      MovesApart ofrom toText (tries ofrom k rest) ∧
        (slidden e (done.map some ++ tries ofrom k rest)).map (rendered toText) = some out := by
  induction rest generalizing done junk k fuel with
  | nil =>
    obtain ⟨fuel, rfl⟩ : ∃ f, fuel = f + 1 := ⟨fuel - 1, by omega⟩
    have hapart : MovesApart ofrom toText ((ofrom.take k).map some ++ []) ↔
        MovesApart ofrom toText [] := movesApart_map_some _ _
    rw [List.append_nil] at hapart
    rw [strReplaceLoop_end hk.le, Option.map_some, cstr_front (zero_not_mem_take hdone hofrom),
      tries, hapart, ← List.map_append, slidden_map_some, Option.map_some, rendered_map_some]
    exact (and_iff_right trivial).symm
  | cons c rest ih =>
    obtain ⟨fuel, rfl⟩ : ∃ f, fuel = f + 1 := ⟨fuel - 1, by omega⟩
    rw [List.length_cons] at hfuel
    obtain ⟨hc, hrest⟩ := not_or.mp (List.mem_cons.not.mp hrest)
    by_cases hnext : ofrom[k]? = some c
    · rcases Nat.lt_or_ge (k + 1) ofrom.length with hlt | hge
      · rw [strReplaceLoop_more (Ne.symm hc) hnext hlt, ih hdone hrest hlt (by omega), tries,
          if_pos hnext, if_neg hlt.ne]
      · have hend : k + 1 = ofrom.length := by omega
        rw [strReplaceLoop_found (Ne.symm hc) hnext hend, replaceWord, if_pos hle, tries,
          if_pos hnext, if_pos hend]
        rcases List.eq_nil_or_concat' done with rfl | ⟨o, x, rfl⟩
        · rw [replaceDown_front hend]
          refine iff_of_false (fun h => ?_) fun h => ?_
          · cases h
          · cases h.2
        rw [MovesApart, rendered_tries, List.take_zero, List.nil_append]
        by_cases hapart : rest.length + 1 + toText.length < ofrom.length
        swap
        · rw [replaceDown_over o junk x olen strLen hend (Ne.symm hc) hrest hapart]
          refine iff_of_false (fun h => ?_) fun h => hapart h.1.1
          cases h
        · obtain ⟨junk', hdown⟩ :=
            replaceDown_eq o junk x olen strLen hapart hend (Ne.symm hc) hrest
          have hce : c = e := by
            have hc' := List.getLast?_eq_getElem? (l := ofrom)
            rw [hlast, ← hend, Nat.add_sub_cancel, hnext] at hc'
            exact (Option.some.inj hc').symm
          have hout : 0 ∉ o ++ toText ++ [c] := by
            simp only [List.mem_append, not_or] at hdone ⊢
            exact ⟨⟨hdone.1, hto⟩, by simpa using hc⟩
          rw [hdown, Option.bind_some, ih hout hrest (by omega) (by omega), hce, slidden_append,
            slidden_append, Option.map_some, Option.map_some, slide, List.map_append,
            rendered_append, rendered_append, rendered_append, rendered_map_some, rendered_map_some,
            rendered, List.append_assoc, and_iff_right hapart]
    · rw [strReplaceLoop_anew hk (Ne.symm hc) hnext, ih _ hrest (by omega) (by omega), tries,
        if_neg hnext, movesApart_map_some]
      · simp [MovesApart]
      · exact zero_not_mem_done hdone hofrom hc

/-! ## A longer text -/

/-- What is moved up is put down over what is there. -/
theorem moveUp_eq (front mid back : List u8) (hfit : d ≤ back.length) :
    moveUp d front.length mid.length (front ++ mid ++ back) =
      some (Common.overlay (front ++ mid ++ back) (front.length + d) mid) := by
  induction mid using List.reverseRecOn generalizing back with
  | nil => rw [List.length_nil, moveUp, overlay_nil]
  | append_singleton mid c ih =>
    have hget : (front ++ (mid ++ [c]) ++ back)[front.length + mid.length]? = some c := by
      rw [← List.append_assoc, ← List.length_append, List.append_assoc,
        List.getElem?_append_right le_rfl, Nat.sub_self]
      rfl
    have hset : (front ++ (mid ++ [c]) ++ back).set (front.length + mid.length + d) c =
        front ++ mid ++ (c :: back).set d c := by
      rw [← List.append_assoc, List.append_assoc _ [c], List.singleton_append,
        List.set_append_right _ _ (by simp), List.length_append, Nat.add_sub_cancel_left]
    have hlt : front.length + d + mid.length < (front ++ (mid ++ [c]) ++ back).length := by
      simp only [List.length_append, List.length_singleton] at hfit ⊢
      omega
    have hplace : front.length + mid.length + d = front.length + d + mid.length := by omega
    rw [List.length_append, List.length_singleton, moveUp, hget, Option.bind_some, store,
      if_pos (hplace ▸ hlt), Option.bind_some, hset, ih _ (by simp at hfit ⊢; omega), ← hset,
      hplace, overlay_set hlt]

theorem moveUp_none (hn : 0 < n) (hout : mem.length < start + n + d) :
    moveUp d start n mem = none := by
  obtain ⟨n, rfl⟩ : ∃ m, n = m + 1 := ⟨n - 1, by omega⟩
  refine Option.bind_eq_none_iff.mpr fun c _ => ?_
  rw [store, if_neg (by omega)]
  rfl

/-- The longer buffer has the string too. -/
theorem resized_text (env : ConsEnv) (l junk : List u8) (hn : l.length < n) :
    ∃ junk', resized env (l ++ 0 :: junk) n = l ++ 0 :: junk' ∧
      l.length + 1 + junk'.length = n := by
  have htext : l ++ 0 :: junk = (l ++ [0]) ++ junk := by simp
  have hlen : (resized env (l ++ 0 :: junk) n).length = n := by
    unfold resized
    simp only [List.length_append, List.length_take, List.length_map, List.length_range]
    omega
  obtain ⟨junk', hjunk⟩ : l ++ [0] <+: resized env (l ++ 0 :: junk) n := by
    unfold resized
    rw [htext, List.take_append, List.take_of_length_le (by simp; omega), List.append_assoc]
    exact List.prefix_append _ _
  rw [← hjunk, List.length_append, List.length_append, List.length_singleton] at hlen
  exact ⟨junk', by rw [← hjunk, List.append_assoc, List.singleton_append], hlen⟩

/-- **The rest moved up, and the text put down** over the word and what is
between them. -/
theorem moveUp_memcpyAt (done ofrom rest : List u8) (hlt : ofrom.length + d = toText.length)
    (hfit : d + d ≤ junk.length) :
    ∃ junk', ((moveUp d done.length (ofrom.length + rest.length + 1 + d)
        (done ++ ofrom ++ rest ++ 0 :: junk)).bind fun mem =>
          memcpyAt mem done.length toText toText.length) =
        some (done ++ toText ++ rest ++ 0 :: junk') ∧ junk'.length + d = junk.length := by
  obtain ⟨between, behind, rfl, hbetween⟩ : ∃ between behind,
      junk = between ++ behind ∧ between.length = d :=
    ⟨_, _, (List.take_append_drop d junk).symm, List.length_take_of_le (by omega)⟩
  rw [List.length_append, hbetween] at hfit ⊢
  obtain ⟨moved, hmoved⟩ : ∃ moved, moved = ofrom ++ rest ++ 0 :: between := ⟨_, rfl⟩
  have hlen : moved.length = ofrom.length + rest.length + 1 + d := by
    rw [hmoved, List.length_append, List.length_append, List.length_cons, hbetween]
    omega
  have hmem : done ++ ofrom ++ rest ++ 0 :: (between ++ behind) = done ++ moved ++ behind := by
    rw [hmoved]
    simp
  -- the word is behind the characters that are left of what was moved
  have hmove := moveUp_eq (d := d) done moved behind (by omega)
  have hover : Common.overlay (done ++ moved ++ behind) (done.length + d) moved =
      done ++ (moved.take d ++ ofrom) ++
        (rest ++ 0 :: (between ++ behind.drop d)) := by
    have htake : (done ++ moved ++ behind).take (done.length + d) = done ++ moved.take d := by
      rw [List.append_assoc, List.take_length_add_append,
        List.take_append_of_le_length (by omega)]
    have hdrop : (done ++ moved ++ behind).drop (done.length + d + moved.length) =
        behind.drop d := by
      have hcount : done.length + d + moved.length = (done ++ moved).length + d := by
        rw [List.length_append]
        omega
      rw [hcount, List.drop_length_add_append]
    unfold Common.overlay
    rw [htake, hdrop]
    nth_rewrite 2 [hmoved]
    simp
  have hlong : (moved.take d ++ ofrom).length = toText.length := by
    rw [List.length_append, List.length_take_of_le (by omega)]
    omega
  refine ⟨between ++ behind.drop d, ?_, ?_⟩
  · rw [hmem, ← hlen, hmove, Option.bind_some, hover, memcpyAt_over done _ hlong,
      List.append_assoc _ rest]
  · rw [List.length_append, List.length_drop, hbetween]
    omega

/-- The word replaced in the buffer that there is then. -/
theorem replaceUp_grown (hlast : k + 1 = ofrom.length) (hlt : ofrom.length + d = toText.length)
    (holen : olen = done.length + ofrom.length + rest.length)
    (hgrow : growBuffer env d s =
      ⟨done ++ ofrom ++ rest ++ 0 :: junk, done.length + k, k, olen + d, strLen⟩) :
    if d + d ≤ junk.length then
      ∃ junk', replaceUp env ofrom toText s =
          some (replacingAt ofrom (done ++ toText) rest junk' 0 (olen + d) strLen) ∧
        junk'.length + d = junk.length
    else replaceUp env ofrom toText s = none := by
  have hd : toText.length - ofrom.length = d := by omega
  have hstart : done.length + k + 1 - ofrom.length = done.length := by omega
  have hcount : olen + d + 1 - done.length = ofrom.length + rest.length + 1 + d := by omega
  rw [replaceUp, hd, hgrow]
  dsimp only
  rw [hstart, hcount]
  split_ifs with hfit
  · obtain ⟨junk', hmove, hlen⟩ := moveUp_memcpyAt done ofrom rest hlt hfit
    obtain ⟨mem, hmem, hput⟩ := Option.bind_eq_some_iff.mp hmove
    refine ⟨junk', ?_, hlen⟩
    rw [hmem, Option.bind_some, hput]
    simp [replacingAt]
  · rw [moveUp_none (by omega) (by simp; omega)]
    rfl

theorem growBuffer_more (env : ConsEnv) (l junk : List u8) (i k : ℕ) (hlen : l.length = olen)
    (hmore : olen + d > strLen) :
    ∃ junk', growBuffer env d ⟨l ++ 0 :: junk, i, k, olen, strLen⟩ =
        ⟨l ++ 0 :: junk', i, k, olen + d, olen + d + 4096⟩ ∧ junk'.length = d + 4095 := by
  have hlt : l.length < olen + d + 4096 := by omega
  obtain ⟨junk', hresized, hsize⟩ := resized_text env l junk hlt
  refine ⟨junk', ?_, by omega⟩
  rw [← hresized]
  exact if_pos hmore

theorem growBuffer_same (hsame : ¬olen + d > strLen) (l : List u8) (i k : ℕ) :
    growBuffer env d ⟨l, i, k, olen, strLen⟩ = ⟨l, i, k, olen + d, strLen⟩ :=
  if_neg hsame

theorem roomFor_map_some (l : List u8) (p : List (Option u8)) (d olen cap strLen : ℕ) :
    RoomFor d (l.map some ++ p) olen cap strLen ↔ RoomFor d p olen cap strLen := by
  induction l with
  | nil => rfl
  | cons c l ih => exact ih

/-- The rest of the loop in the buffer that there is then. -/
theorem strReplaceLoop_grown {out : List u8} (hlast : k + 1 = ofrom.length)
    (hlt : ofrom.length + d = toText.length)
    (holen : olen = done.length + ofrom.length + rest.length)
    (hgrow : growBuffer env d s =
      ⟨done ++ ofrom ++ rest ++ 0 :: junk, done.length + k, k, olen + d, strLen⟩)
    (hrest : ∀ junk', (strReplaceLoop env ofrom toText fuel
        (replacingAt ofrom (done ++ toText) rest junk' 0 (olen + d) strLen)).map cstr = some out ↔
      RoomFor d (tries ofrom 0 rest) (olen + d) (olen + d + 1 + junk'.length) strLen ∧
        done ++ toText ++ rendered toText (tries ofrom 0 rest) = out) :
    ((replaceUp env ofrom toText s).bind (strReplaceLoop env ofrom toText fuel)).map cstr =
        some out ↔
      (d + d ≤ junk.length ∧
        RoomFor d (tries ofrom 0 rest) (olen + d) (olen + 1 + junk.length) strLen) ∧
      done ++ toText ++ rendered toText (tries ofrom 0 rest) = out := by
  have hup := replaceUp_grown hlast hlt holen hgrow
  split_ifs at hup with hfit
  · obtain ⟨junk', hup, hlen⟩ := hup
    have hcap : olen + 1 + junk.length = olen + d + 1 + junk'.length := by omega
    rw [hup, Option.bind_some, and_iff_right hfit, hcap]
    exact hrest junk'
  · rw [hup]
    exact iff_of_false (by simp) fun h => hfit h.1.1

/-- **The loop** puts down what the marks of the matcher say, as long as
there is room. -/
theorem strReplaceLoop_up {out : List u8} (hlt : ofrom.length + d = toText.length) (hd : 0 < d)
    (hto : 0 ∉ toText) (hofrom : 0 ∉ ofrom) (hdone : 0 ∉ done) (hrest : 0 ∉ rest)
    (hk : k < ofrom.length) (holen : olen = done.length + k + rest.length)
    (hfuel : rest.length < fuel) :
    (strReplaceLoop env ofrom toText fuel
        (replacingAt ofrom done rest junk k olen strLen)).map cstr = some out ↔
      RoomFor d (tries ofrom k rest) olen (olen + 1 + junk.length) strLen ∧
        done ++ rendered toText (tries ofrom k rest) = out := by
  induction rest generalizing done junk k olen strLen fuel with
  | nil =>
    obtain ⟨fuel, rfl⟩ : ∃ f, fuel = f + 1 := ⟨fuel - 1, by omega⟩
    have hroom := roomFor_map_some (ofrom.take k) [] d olen (olen + 1 + junk.length) strLen
    rw [List.append_nil] at hroom
    rw [strReplaceLoop_end hk.le, Option.map_some, cstr_front (zero_not_mem_take hdone hofrom),
      tries, hroom, rendered_map_some, Option.some.injEq]
    exact (and_iff_right trivial).symm
  | cons c rest ih =>
    obtain ⟨fuel, rfl⟩ : ∃ f, fuel = f + 1 := ⟨fuel - 1, by omega⟩
    rw [List.length_cons] at hfuel holen
    obtain ⟨hc, hrest⟩ := not_or.mp (List.mem_cons.not.mp hrest)
    by_cases hnext : ofrom[k]? = some c
    · rcases Nat.lt_or_ge (k + 1) ofrom.length with hmore | hge
      · rw [strReplaceLoop_more (Ne.symm hc) hnext hmore, tries, if_pos hnext, if_neg hmore.ne]
        exact ih hdone hrest hmore (by omega) (by omega)
      · have hend : k + 1 = ofrom.length := by omega
        have hlonger : ¬toText.length ≤ ofrom.length := by omega
        have hdone' : 0 ∉ done ++ toText := fun h => (List.mem_append.mp h).elim hdone hto
        have hstring : olen = done.length + ofrom.length + rest.length := by omega
        have hrendered : done ++ toText ++ rendered toText (tries ofrom 0 rest) =
            done ++ rendered toText (none :: tries ofrom 0 rest) := List.append_assoc _ _ _
        rw [strReplaceLoop_found (Ne.symm hc) hnext hend, replaceWord, if_neg hlonger, tries,
          if_pos hnext, if_pos hend, RoomFor, replacingAt_found hnext hend, ← hrendered]
        have hbehind : ∀ (strLen : ℕ) (junk : List u8),
            (strReplaceLoop env ofrom toText fuel
                (replacingAt ofrom (done ++ toText) rest junk 0 (olen + d) strLen)).map cstr =
              some out ↔
            RoomFor d (tries ofrom 0 rest) (olen + d) (olen + d + 1 + junk.length) strLen ∧
              done ++ toText ++ rendered toText (tries ofrom 0 rest) = out := fun strLen junk =>
          ih hdone' hrest (by omega) (by simp; omega) (by omega)
        split_ifs with hmore
        · obtain ⟨junk', hgrow, hsize⟩ := growBuffer_more env (done ++ ofrom ++ rest) junk
            (done.length + k) k (by simp; omega) hmore
          have hroom : d + d ≤ junk'.length ↔ d < 4096 := by omega
          have hcap : olen + 1 + junk'.length = olen + d + 4096 := by omega
          rw [strReplaceLoop_grown hend hlt hstring hgrow (hbehind _), hroom, hcap]
        · have hroom : d + d ≤ junk.length ↔ olen + d + d < olen + 1 + junk.length := by omega
          rw [strReplaceLoop_grown hend hlt hstring (growBuffer_same hmore _ _ _) (hbehind _),
            hroom]
    · have hdone' : 0 ∉ done ++ ofrom.take k ++ [c] := zero_not_mem_done hdone hofrom hc
      rw [strReplaceLoop_anew hk (Ne.symm hc) hnext, tries, if_neg hnext, roomFor_map_some,
        rendered_append, rendered_map_some]
      refine (ih hdone' hrest (by omega) (by simp; omega) (by omega)).trans ?_
      simp [rendered, RoomFor]

/-! ## The result -/

theorem replaces_down_iff {text ofrom toText : CText} (hofrom : ofrom.1 ≠ [])
    (hle : toText.1.length ≤ ofrom.1.length) :
    Replaces env text ofrom toText junk strLen ↔
      MovesApart ofrom.1 toText.1 (tries ofrom.1 0 text.1) ∧
        (slidden (ofrom.1.getLastD 0) (tries ofrom.1 0 text.1)).map (rendered toText.1) =
          some (rendered toText.1 (wordMarked ofrom.1 text.1)) := by
  have hlast : ofrom.1.getLast? = some (ofrom.1.getLastD 0) := by
    rw [List.getLastD_eq_getLast?, List.getLast?_eq_some_getLast hofrom]
    rfl
  exact strReplaceLoop_down hle toText.2 ofrom.2 hlast List.not_mem_nil text.2
    (List.length_pos_iff.mpr hofrom) (Nat.lt_succ_self _)

theorem replaces_up_iff {text ofrom toText : CText} (hofrom : ofrom.1 ≠ [])
    (hlt : ofrom.1.length < toText.1.length) :
    Replaces env text ofrom toText junk strLen ↔
      HasRoom text.1 ofrom.1 toText.1 junk strLen ∧
        rendered toText.1 (tries ofrom.1 0 text.1) =
          rendered toText.1 (wordMarked ofrom.1 text.1) :=
  strReplaceLoop_up (by omega) (by omega) toText.2 ofrom.2 List.not_mem_nil text.2
    (List.length_pos_iff.mpr hofrom) (by simp) (Nat.lt_succ_self _)

theorem findsAll_iff {text ofrom : List u8} (hofrom : ofrom ≠ []) :
    tries ofrom 0 text = wordMarked ofrom text ↔ FindsAll ofrom text :=
  tries_eq_marked_iff (List.length_pos_iff.mpr hofrom)

theorem replaces_iff {text ofrom toText : CText} (hofrom : ofrom.1 ≠ []) :
    Replaces env text ofrom toText junk strLen ↔
      ReplacesRight text.1 ofrom.1 toText.1 junk strLen := by
  rw [ReplacesRight]
  split_ifs with hlt
  · rw [replaces_up_iff hofrom hlt]
    refine and_congr_right fun _ => (or_iff_right_of_imp fun h => ?_).symm
    rw [(findsAll_iff hofrom).mpr h]
  · rw [replaces_down_iff hofrom (by omega)]
    refine and_congr_right fun _ => ?_
    by_cases hall : FindsAll ofrom.1 text.1
    · rw [and_iff_right hall, or_iff_left fun h => h.1 hall, (findsAll_iff hofrom).mpr hall,
        slidden_iff]
    · rw [and_iff_right hall, or_iff_right fun h => hall h.1]

/-- Where the word is nowhere nothing is moved. -/
theorem movesApart_of_not_mem {text : List u8} (hout : ¬ofrom <:+: text) :
    MovesApart ofrom toText (tries ofrom 0 text) := by
  have htries : rendered ofrom (tries ofrom 0 text) = text := rendered_tries
  have hnone : none ∉ tries ofrom 0 text := fun hmem => hout (htries ▸ infix_of_mem_none hmem)
  rw [eq_map_some_of_not_mem ofrom hnone, ← List.append_nil (List.map some _), movesApart_map_some]
  trivial

/-- **Of the text and the word alone**: all that is no longer than the word
replaces it rightly only where the word is nowhere. -/
theorem replaces_short_iff {text ofrom : CText} (hofrom : ofrom.1 ≠ []) :
    (∀ short : CText, short.1 ≠ [] → short.1.length ≤ ofrom.1.length →
      Replaces env text ofrom short junk strLen) ↔ ¬ofrom.1 <:+: text.1 := by
  have hpos : 1 ≤ ofrom.1.length := List.length_pos_iff.mpr hofrom
  rw [← slidden_tries_iff (e := ofrom.1.getLastD 0) hofrom]
  constructor
  · intro h
    have hone := ((replaces_down_iff hofrom (by exact hpos)).mp
      (h ⟨[1], by decide⟩ (by decide) hpos)).2
    have htwo := ((replaces_down_iff hofrom (by exact hpos)).mp
      (h ⟨[2], by decide⟩ (by decide) hpos)).2
    obtain ⟨p, hp, ha⟩ := Option.map_eq_some_iff.mp hone
    rw [hp] at htwo ⊢
    rw [rendered_inj (by decide) ha (Option.some.inj htwo)]
    rfl
  · intro h short _ hle
    rw [replaces_down_iff hofrom hle, h]
    exact ⟨movesApart_of_not_mem ((slidden_tries_iff hofrom).mp h), rfl⟩

/-- A buffer that is large enough, and of the size given. -/
theorem roomFor_of_large {p : List (Option u8)} {cap : ℕ} (hgiven : olen + d * p.length ≤ strLen)
    (hcap : olen + d * (p.length + 1) < cap) : RoomFor d p olen cap strLen := by
  induction p generalizing olen with
  | nil => trivial
  | cons o p ih =>
    rw [List.length_cons, Nat.mul_add, Nat.mul_one] at hgiven hcap
    rw [Nat.mul_add, Nat.mul_one] at hcap
    have hrest : RoomFor d p (olen + d) cap strLen :=
      ih (by omega) (by rw [Nat.mul_add, Nat.mul_one]; omega)
    cases o with
    | some c => exact ih (by omega) (by rw [Nat.mul_add, Nat.mul_one]; omega)
    | none =>
      rw [RoomFor, if_neg (by omega)]
      exact ⟨by omega, hrest⟩

/-- **Of the text and the word alone**: all that is longer than the word
replaces it rightly where there is room, just if the matcher finds all. -/
theorem replaces_long_iff {text ofrom : CText} (hofrom : ofrom.1 ≠ []) :
    (∀ (long : CText) (junk : List u8) (strLen : ℕ), ofrom.1.length < long.1.length →
      HasRoom text.1 ofrom.1 long.1 junk strLen → Replaces env text ofrom long junk strLen) ↔
        FindsAll ofrom.1 text.1 := by
  constructor
  · intro h
    -- two texts are enough to tell the marks
    have hlong : ∀ z : u8, z ≠ 0 → rendered (z :: List.replicate ofrom.1.length z)
        (tries ofrom.1 0 text.1) =
          rendered (z :: List.replicate ofrom.1.length z) (wordMarked ofrom.1 text.1) := by
      intro z hz
      have hzero : (0 : u8) ∉ z :: List.replicate ofrom.1.length z := by
        intro hmem
        rw [← List.replicate_succ] at hmem
        exact hz (List.eq_of_mem_replicate hmem).symm
      have hlt : ofrom.1.length < (z :: List.replicate ofrom.1.length z).length := by simp
      have hroom : HasRoom text.1 ofrom.1 (z :: List.replicate ofrom.1.length z)
          (List.replicate ((tries ofrom.1 0 text.1).length + 1) 0)
          (text.1.length + (tries ofrom.1 0 text.1).length) := by
        refine roomFor_of_large ?_ ?_
        · simp
        · simp only [List.length_cons, List.length_replicate, Nat.add_sub_cancel_left]
          omega
      exact ((replaces_up_iff hofrom hlt).mp (h ⟨_, hzero⟩ _ _ hlt hroom)).2
    exact (findsAll_iff hofrom).mp
      (rendered_inj (by decide) (hlong 1 (by decide)) (hlong 2 (by decide)))
  · intro h long junk strLen hlt hroom
    refine (replaces_up_iff hofrom hlt).mpr ⟨hroom, ?_⟩
    rw [(findsAll_iff hofrom).mpr h]

/-- **When a text is replaced**: what is returned has the text in the place of
each word, if and only if it is longer, all words are found and there is room,
or it makes no difference. What is no longer than the word does it rightly in
general only where the word is nowhere, and what is longer, where all words
are found. -/
theorem strReplace_iff (env : ConsEnv) (text ofrom toText : CText) (junk : List u8) (strLen : ℕ)
    (hofrom : ofrom.1 ≠ []) :
    (Replaces env text ofrom toText junk strLen ↔
        ReplacesRight text.1 ofrom.1 toText.1 junk strLen) ∧
      ((∀ short : CText, short.1 ≠ [] → short.1.length ≤ ofrom.1.length →
        Replaces env text ofrom short junk strLen) ↔ ¬ofrom.1 <:+: text.1) ∧
      ((∀ (long : CText) (junk : List u8) (strLen : ℕ), ofrom.1.length < long.1.length →
        HasRoom text.1 ofrom.1 long.1 junk strLen → Replaces env text ofrom long junk strLen) ↔
          FindsAll ofrom.1 text.1) :=
  ⟨replaces_iff hofrom, replaces_short_iff hofrom, replaces_long_iff hofrom⟩

/-- In `abab`, in a buffer with room for eight more, `xyz` for each `ab`. -/
theorem strReplace_longer :
    Replaces ⟨fun _ => 0, fun _ => 0⟩ ⟨[97, 98, 97, 98], by decide⟩ ⟨[97, 98], by decide⟩
      ⟨[120, 121, 122], by decide⟩ (List.replicate 8 0) 13 := by
  have hfinds : FindsAll [97, 98] [97, 98, 97, 98] := (findsAll_iff (by decide)).mp (by decide)
  have hroom : HasRoom [97, 98, 97, 98] [97, 98] [120, 121, 122] (List.replicate 8 0) 13 :=
    roomFor_of_large (by decide) (by decide)
  exact ((strReplace_iff ⟨fun _ => 0, fun _ => 0⟩ ⟨[97, 98, 97, 98], by decide⟩
    ⟨[97, 98], by decide⟩ ⟨[120, 121, 122], by decide⟩ (List.replicate 8 0) 13
    (by decide)).1).mpr ⟨hroom, Or.inl hfinds⟩

/-- In `xabc` a `d` for `abc` goes over the `x`, and the `c` is left. -/
theorem strReplace_shorter :
    ¬Replaces ⟨fun _ => 0, fun _ => 0⟩ ⟨[120, 97, 98, 99], by decide⟩ ⟨[97, 98, 99], by decide⟩
      ⟨[100], by decide⟩ [] 5 := by
  unfold Replaces
  decide

end Radare
