import Radare.Rio.Buffers
import Radare.Rio.HexText
/-!
# Escapes

A string for `escape_buffer` is made of items: characters that stand for
themselves, `\e`, `\r` and `\n`, and `\x` with two hexadecimal digits. The
bytes of the items come out where the string is, also a NUL or a backslash
that was written in digits; and of any string that is not made of items
nothing does. In its buffer `escape_buffer` moves the rest of the string down with
`strcpy`, which is defined only where the two do not overlap, so that it is
right just where next to nothing stands behind an escape (`escapes_right_iff`).
-/

namespace Radare

/-- What a string may be made of. -/
inductive EscapeItem
  | plain (c : u8) (hzero : c ≠ 0) (hslash : c ≠ 92)
  | esc
  | ret
  | newline
  | hex (a b : u8) (x y : ℕ) (ha : hexDigit a = some x) (hb : hexDigit b = some y)

/-- How it is written. -/
def EscapeItem.text : EscapeItem → List u8
  | plain c _ _ => [c]
  | esc => [92, 101]
  | ret => [92, 114]
  | newline => [92, 110]
  | hex a b _ _ _ _ => [92, 120, a, b]

/-- The byte that it is. -/
def EscapeItem.byte : EscapeItem → u8
  | plain c _ _ => c
  | esc => 0x1b
  | ret => 0x0d
  | newline => 0x0a
  | hex _ _ x y _ _ => UInt8.ofNat (x * 16 + y)

def escapeText (items : List EscapeItem) : List u8 := items.flatMap EscapeItem.text

variable {a b c : u8} {x y : ℕ} {rest text : List u8} {items : List EscapeItem}

/-! ## Digits -/

theorem shifted_digits {x y : ℕ} (hx : x < 16) (hy : y < 16) :
    ((0 * 16 + UInt8.ofNat x) <<< 4) + (0 * 16 + UInt8.ofNat y) = UInt8.ofNat (x * 16 + y) := by
  have h : ∀ x y : Fin 16, (((0 : u8) * 16 + UInt8.ofNat x) <<< 4) + (0 * 16 + UInt8.ofNat y) =
      UInt8.ofNat (x * 16 + y) := by decide
  exact h ⟨x, hx⟩ ⟨y, hy⟩

/-- Two digits behind `\x`. -/
theorem escapeBuffer_hex (ha : hexDigit a = some x) (hb : hexDigit b = some y) :
    escapeBuffer (92 :: 120 :: a :: b :: rest) =
      (escapeBuffer rest).map (UInt8.ofNat (x * 16 + y) :: ·) := by
  rw [escapeBuffer, hex2int_of_digit ha, hex2int_of_digit hb]
  dsimp only
  rw [shifted_digits (hexDigit_lt ha) (hexDigit_lt hb)]

/-- And anything else there. -/
theorem escapeBuffer_bad (h : hexDigit a = none ∨ hexDigit b = none) :
    escapeBuffer (92 :: 120 :: a :: b :: rest) = none := by
  rw [escapeBuffer]
  rcases h with ha | hb
  · rw [hex2int_eq_none_iff.mpr ha]
  · rw [hex2int_eq_none_iff.mpr hb]
    cases hex2int 0 a <;> rfl

/-! ## Items -/

theorem escapeText_cons (item : EscapeItem) (items : List EscapeItem) :
    escapeText (item :: items) = item.text ++ escapeText items := List.flatMap_cons

/-- One item in front. -/
theorem escapeBuffer_item (item : EscapeItem) (rest : List u8) :
    escapeBuffer (item.text ++ rest) = (escapeBuffer rest).map (item.byte :: ·) := by
  cases item with
  | plain c hzero hslash =>
    exact escapeBuffer.eq_7 c rest (fun _ h _ => hslash h) (fun _ h _ => hslash h)
      (fun _ h _ => hslash h) (fun _ _ _ h _ => hslash h) hslash
  | esc => rfl
  | ret => rfl
  | newline => rfl
  | hex a b x y ha hb => exact escapeBuffer_hex ha hb

/-- **Items come out as their bytes.** -/
theorem escapeBuffer_items (items : List EscapeItem) :
    escapeBuffer (escapeText items) = some (items.map EscapeItem.byte) := by
  induction items with
  | nil => rfl
  | cons item items ih =>
    rw [escapeText_cons, escapeBuffer_item, ih]
    rfl

/-- One item in front of those that a string is made of. -/
theorem made_of_items (item : EscapeItem) (h : ∃ items, escapeText items = rest) :
    ∃ items, escapeText items = item.text ++ rest := by
  obtain ⟨items, rfl⟩ := h
  exact ⟨item :: items, escapeText_cons item items⟩

/-- **A string that something comes out of is made of items.** -/
theorem items_of_escapeBuffer (hzero : 0 ∉ text) (h : (escapeBuffer text).isSome) :
    ∃ items, escapeText items = text := by
  induction text using escapeBuffer.induct with
  | case1 => exact ⟨[], rfl⟩
  | case2 rest ih =>
    rw [escapeBuffer, Option.isSome_map] at h
    exact made_of_items .esc (ih (fun hmem => hzero (by simp [hmem])) h)
  | case3 rest ih =>
    rw [escapeBuffer, Option.isSome_map] at h
    exact made_of_items .ret (ih (fun hmem => hzero (by simp [hmem])) h)
  | case4 rest ih =>
    rw [escapeBuffer, Option.isSome_map] at h
    exact made_of_items .newline (ih (fun hmem => hzero (by simp [hmem])) h)
  | case5 a b rest ch ch2 hb ha ih =>
    rw [escapeBuffer, ha, hb, Option.isSome_map] at h
    obtain ⟨x, hx⟩ : ∃ x, hexDigit a = some x := by
      refine Option.ne_none_iff_exists'.mp fun hnone => ?_
      rw [hex2int_eq_none_iff.mpr hnone] at ha
      cases ha
    obtain ⟨y, hy⟩ : ∃ y, hexDigit b = some y := by
      refine Option.ne_none_iff_exists'.mp fun hnone => ?_
      rw [hex2int_eq_none_iff.mpr hnone] at hb
      cases hb
    exact made_of_items (.hex a b x y hx hy) (ih (fun hmem => hzero (by simp [hmem])) h)
  | case6 a b rest hbad =>
    have hnone : hexDigit a = none ∨ hexDigit b = none := by
      by_contra hboth
      obtain ⟨ha, hb⟩ := not_or.mp hboth
      obtain ⟨x, hx⟩ := Option.ne_none_iff_exists'.mp ha
      obtain ⟨y, hy⟩ := Option.ne_none_iff_exists'.mp hb
      exact hbad _ _ (hex2int_of_digit hx) (hex2int_of_digit hy)
    rw [escapeBuffer_bad hnone] at h
    cases h
  | case7 tail he hr hn hx =>
    rw [escapeBuffer.eq_6 tail he hr hn hx] at h
    cases h
  | case8 c rest he hr hn hx hc ih =>
    rw [escapeBuffer.eq_7 c rest he hr hn hx hc, Option.isSome_map] at h
    have hne : c ≠ 0 := fun hc => hzero (hc ▸ List.mem_cons_self)
    exact made_of_items (.plain c hne hc) (ih (fun hmem => hzero (List.mem_cons_of_mem _ hmem)) h)

/-! ## In its buffer -/

theorem escapeLoop_text (junk : List u8) (hzero : 0 ∉ text) :
    if escapesApart text then
      EscapedTo [] (escapeLoop (text ++ 0 :: junk).length (text ++ 0 :: junk) 0)
        (escapeBuffer text)
    else escapeLoop (text ++ 0 :: junk).length (text ++ 0 :: junk) 0 = none :=
  escapesText hzero [] junk _ (by simp)

/-- What `escape_buffer` is to do: put the bytes of items in their place and return their
number, and return 0 for any other string. -/
def EscapesRight (junk text : List u8) : Prop :=
  (∀ items, escapeText items = text → ∃ junk',
    escapeLoop (text ++ 0 :: junk).length (text ++ 0 :: junk) 0 =
      some (items.length, items.map EscapeItem.byte ++ 0 :: junk')) ∧
  ((∀ items, escapeText items ≠ text) → ∃ buf,
    escapeLoop (text ++ 0 :: junk).length (text ++ 0 :: junk) 0 = some (0, buf))

/-- It does so where nothing is copied over itself. -/
theorem escapes_right (junk : List u8) (hzero : 0 ∉ text) (hapart : escapesApart text) :
    EscapesRight junk text := by
  have h := escapeLoop_text junk hzero
  rw [if_pos hapart] at h
  constructor
  · rintro items rfl
    rw [escapeBuffer_items] at h
    obtain ⟨junk', hloop⟩ := h
    rw [List.length_nil, Nat.zero_add, List.length_map] at hloop
    exact ⟨junk', hloop⟩
  · intro hitems
    have hnone : escapeBuffer text = none := by
      by_contra hne
      obtain ⟨items, htext⟩ := items_of_escapeBuffer hzero (Option.isSome_iff_ne_none.mpr hne)
      exact hitems items htext
    rwa [hnone] at h

/-- **`escape_buffer` does with a string what it should just if no escape of it is
copied over**: `\e`, `\r` and `\n` with nothing behind, `\x` and its digits with
less than three characters. -/
theorem escapes_right_iff (junk : List u8) (hzero : 0 ∉ text) :
    EscapesRight junk text ↔ escapesApart text := by
  refine ⟨fun hright => ?_, escapes_right junk hzero⟩
  by_contra hover
  have hnone := escapeLoop_text junk hzero
  rw [if_neg hover] at hnone
  -- the string is made of items or is not, and has no result either way
  by_cases hmade : ∃ items, escapeText items = text
  · obtain ⟨items, htext⟩ := hmade
    obtain ⟨junk', hloop⟩ := hright.1 items htext
    rw [hnone] at hloop
    cases hloop
  · obtain ⟨buf, hloop⟩ := hright.2 (not_exists.mp hmade)
    rw [hnone] at hloop
    cases hloop

/-- `\q` is no escape, and 0 is returned for it; `a\x414` is decoded. -/
theorem escapes_right_unknown :
    EscapesRight [7] [92, 113] ∧ EscapesRight [7] [97, 92, 120, 52, 49, 52] :=
  ⟨(escapes_right_iff [7] (by decide)).mpr rfl, (escapes_right_iff [7] (by decide)).mpr rfl⟩

/-- 32 letters behind a newline. -/
theorem escapes_newline_wrong :
    ¬∀ text, 0 ∉ text → EscapesRight [] text := by
  intro h
  have hzero : (0 : u8) ∉ 92 :: 110 :: List.replicate 32 97 := by decide
  have hloop : escapeLoop 35 (92 :: 110 :: List.replicate 32 97 ++ [0]) 0 = none := by decide
  -- the newline, and a letter for each
  have htext : escapeText (.newline :: List.replicate 32 (.plain 97 (by decide) (by decide))) =
      92 :: 110 :: List.replicate 32 97 := rfl
  obtain ⟨junk', hsome⟩ := (h _ hzero).1 _ htext
  cases hloop.symm.trans hsome

end Radare
