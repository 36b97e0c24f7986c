import Radare.Common.Overlay
import Radare.Model.Text
import Radare.Rio.Decode
/-!
# Hexadecimal texts

A digit adds four bits to the byte under way (`hex2int_of_digit`), and two of
them are one. Between the digits, and between the two of a byte, there may
be characters that `hexstr2binstr` passes over. A byte is stored once the
next character is read that is not one of these, so that the text is behind
the bytes wherever these go over it (`HexPlace`).

So `hexstr2binstr` writes what a text renders, and returns 0 where it comes
to another character (`hexstr2binstr_text`).
-/

namespace Radare

open Common

/-- The characters of a text that are not passed over. -/
def significant (text : List u8) : List u8 := text.filter fun c => !ignored c

/-- The digits of bytes. -/
def nibbles (b : List u8) : List ℕ := b.flatMap fun x => [x.toNat / 16, x.toNat % 16]

/-- A text has two digits for each byte, of either case, and else only
characters that are passed over. -/
def Renders (text b : List u8) : Prop := (significant text).map hexDigit = (nibbles b).map some

/-- Digits put together in pairs. -/
def packed : List ℕ → List u8
  | x :: y :: ds => UInt8.ofNat (x * 16 + y) :: packed ds
  | _ => []

/-- A string in memory, with its NUL. -/
def StringAt (mem : List u8) (i : ℕ) (text : List u8) : Prop :=
  ∃ behind, mem.drop i = text ++ 0 :: behind

/-- Where a text is, and where its bytes are to go: into the text itself, in
front of it or behind. -/
structure HexPlace (mem : List u8) (inp out : ℕ) (text : List u8) : Prop where
  string : StringAt mem inp text
  room : out + (significant text).length / 2 ≤ mem.length
  apart : out ≤ inp ∨ inp + text.length < out

variable {getMath : List u8 → ut64} {mem base rest done text b : List u8} {pend ds : List ℕ}
  {c ch : u8} {ptr o fuel d : ℕ} {r : Option (ℕ × List u8)}

/-! ## Digits -/

theorem ne_blank (h : (hexDigit c).isSome) : c ≠ 32 := by
  rintro rfl
  exact absurd h (by decide)

/-- What a digit is not. -/
theorem ne_of_digit (h : hexDigit c = some d) : ignored c = false ∧ c ≠ 0 ∧ c ≠ 32 ∧ c ≠ 120 := by
  have hsome : (hexDigit c).isSome := by rw [h]; rfl
  refine ⟨?_, ?_, ne_blank hsome, ?_⟩
  · refine decide_eq_false fun hig => ?_
    rcases hig with rfl | rfl | rfl | rfl | rfl <;> exact absurd hsome (by decide)
  · rintro rfl
    exact absurd hsome (by decide)
  · rintro rfl
    exact absurd hsome (by decide)

theorem ofNat_toNat_sub {a : u8} (h : a ≤ c) : UInt8.ofNat (c.toNat - a.toNat) = c - a := by
  rw [← UInt8.toNat_sub_of_le _ _ h, UInt8.ofNat_toNat]

/-- One digit more. -/
theorem hex2int_of_digit {v : u8} {d : ℕ} (h : hexDigit c = some d) :
    hex2int v c = some (v * 16 + UInt8.ofNat d) := by
  have hten : ∀ a : u8, a ≤ c → UInt8.ofNat (c.toNat - a.toNat + 10) = c - a + 10 := by
    intro a ha
    rw [UInt8.ofNat_add, ofNat_toNat_sub ha]
    rfl
  unfold hexDigit at h
  unfold hex2int
  split_ifs at h ⊢ with hdigit hupper hlower
  · obtain rfl := Option.some.inj h
    exact congrArg (fun x => some (v * 16 + x)) (ofNat_toNat_sub hdigit.1).symm
  · have hle := UInt8.le_iff_toNat_le.mp hupper.1
    have hval : (65 : u8).toNat = 65 := rfl
    obtain rfl : c.toNat - 65 + 10 = d := by
      have := Option.some.inj h
      omega
    exact congrArg (fun x => some (v * 16 + x)) (hten 65 hupper.1).symm
  · have hle := UInt8.le_iff_toNat_le.mp hlower.1
    have hval : (97 : u8).toNat = 97 := rfl
    obtain rfl : c.toNat - 97 + 10 = d := by
      have := Option.some.inj h
      omega
    exact congrArg (fun x => some (v * 16 + x)) (hten 97 hlower.1).symm

/-- What is no digit has no value. -/
theorem hex2int_eq_none_iff {v : u8} : hex2int v c = none ↔ hexDigit c = none := by
  unfold hex2int hexDigit
  split_ifs <;> simp

/-- The first digit of a byte. -/
theorem upper_digit {a : ℕ} (ha : a < 16) :
    (((0 : u8) * 16 + UInt8.ofNat a) ||| 0) <<< 4 = UInt8.ofNat (a * 16) := by
  have h : ∀ a : Fin 16,
      (((0 : u8) * 16 + UInt8.ofNat a) ||| 0) <<< 4 = UInt8.ofNat (a * 16) := by decide
  exact h ⟨a, ha⟩

/-- And the second. -/
theorem lower_digit {a d : ℕ} (ha : a < 16) (hd : d < 16) :
    (UInt8.ofNat (a * 16) * 16 + UInt8.ofNat d) ||| UInt8.ofNat (a * 16) =
      UInt8.ofNat (a * 16 + d) := by
  have h : ∀ a d : Fin 16, (UInt8.ofNat (a * 16) * 16 + UInt8.ofNat d) ||| UInt8.ofNat (a * 16) =
      UInt8.ofNat (a * 16 + d) := by decide
  exact h ⟨a, ha⟩ ⟨d, hd⟩

theorem nibbles_cons (x : u8) (b : List u8) :
    nibbles (x :: b) = x.toNat / 16 :: x.toNat % 16 :: nibbles b := rfl

/-- The digits of bytes put together again. -/
theorem packed_nibbles (b : List u8) : packed (nibbles b) = b := by
  induction b with
  | nil => rfl
  | cons x b ih =>
    have hx : UInt8.ofNat (x.toNat / 16 * 16 + x.toNat % 16) = x := by
      rw [Nat.div_add_mod', UInt8.ofNat_toNat]
    rw [nibbles_cons, packed, ih, hx]

/-! ## The state -/

/-- The byte under way. -/
def accum : List ℕ → u8
  | [x] => UInt8.ofNat (x * 16)
  | [x, y] => UInt8.ofNat (x * 16 + y)
  | _ => 0

/-- Where the loop is, with bytes that are written and digits of the next
one. -/
def hexAt (base : List u8) (o ptr : ℕ) (done : List u8) (pend : List ℕ) : HexScan :=
  { mem := overlay base o done, ptr := ptr, len := done.length, c := accum pend, j := pend.length }

/-- What is still to be read has not been written over, and there is room
for its bytes. -/
structure Clear (base : List u8) (o ptr : ℕ) (done : List u8) (pend : List ℕ) (rest : List u8) :
    Prop where
  string : StringAt base ptr rest
  room : o + done.length + (pend.length + (significant rest).length) / 2 ≤ base.length
  apart : o + 2 * done.length + pend.length ≤ ptr ∨ ptr + rest.length < o
  few : pend.length ≤ 2
  digit : ∀ x ∈ pend, x < 16

/-- The characters that are still to be read. -/
theorem Clear.getElem? (h : Clear base o ptr done pend rest) {i : ℕ} (hi : i ≤ rest.length) :
    (overlay base o done)[ptr + i]? = (rest ++ [0])[i]? := by
  obtain ⟨behind, htext⟩ := h.string
  have hroom := h.room
  have hget : base[ptr + i]? = (rest ++ [0])[i]? := by
    have hsplit : rest ++ 0 :: behind = (rest ++ [0]) ++ behind := by simp
    rw [← List.getElem?_drop, htext, hsplit, List.getElem?_append_left (by simp; omega)]
  rw [getElem?_overlay_apart (by omega), hget]
  rcases h.apart with hbefore | hbehind
  · exact Or.inr (by omega)
  · exact Or.inl (by omega)

theorem Clear.head (h : Clear base o ptr done pend rest) :
    (overlay base o done)[ptr]? = some (rest.headD 0) := by
  have hget := h.getElem? (Nat.zero_le _)
  rw [Nat.add_zero] at hget
  rw [hget]
  cases rest <;> rfl

theorem Clear.second (h : Clear base o ptr done pend (ch :: rest)) :
    (overlay base o done)[ptr + 1]? = some (rest.headD 0) := by
  have hget := h.getElem? (i := 1) (by simp)
  rw [hget]
  cases rest <;> rfl

/-- One character further. -/
theorem Clear.next (h : Clear base o ptr done pend (ch :: rest)) {pend' : List ℕ}
    (hlen : pend'.length + (significant rest).length ≤
      pend.length + (significant (ch :: rest)).length)
    (hle : pend'.length ≤ pend.length + 1) (hfew : pend'.length ≤ 2) (hdigit : ∀ x ∈ pend', x < 16) :
    Clear base o (ptr + 1) done pend' rest := by
  obtain ⟨behind, htext⟩ := h.string
  have hroom := h.room
  refine ⟨⟨behind, ?_⟩, by omega, ?_, hfew, hdigit⟩
  · rw [← List.drop_drop, htext]
    rfl
  · rcases h.apart with hbefore | hbehind
    · exact Or.inl (by omega)
    · rw [List.length_cons] at hbehind
      exact Or.inr (by omega)

/-! ## Turns -/

/-- A character that is passed over. -/
theorem hexLoop_ignored (h : Clear base o ptr done pend (ch :: rest)) (hig : ignored ch = true) :
    hexLoop getMath o (fuel + 1) (hexAt base o ptr done pend) =
      hexLoop getMath o fuel (hexAt base o (ptr + 1) done pend) := by
  rw [hexLoop, hexTurn, hexAt, h.head]
  simp only [List.headD_cons, Option.bind_eq_bind, Option.bind_some, hig, if_true]
  rfl

/-- A byte that is complete is stored before any other character. -/
theorem hexLoop_flush {x y : ℕ} (h : Clear base o ptr done [x, y] rest)
    (hig : ignored (rest.headD 0) = false) :
    hexLoop getMath o (fuel + 1) (hexAt base o ptr done [x, y]) =
      hexLoop getMath o (fuel + 1)
        (hexAt base o ptr (done ++ [UInt8.ofNat (x * 16 + y)]) []) := by
  have hroom := h.room
  rw [List.length_cons, List.length_singleton] at hroom
  have hlt : o + done.length < base.length := by omega
  have hstore : store (overlay base o done) (o + done.length) (UInt8.ofNat (x * 16 + y)) =
      some (overlay base o (done ++ [UInt8.ofNat (x * 16 + y)])) := by
    unfold store
    rw [length_overlay hlt.le, if_pos hlt, set_overlay hlt]
  have hlength : (done ++ [UInt8.ofNat (x * 16 + y)]).length = done.length + 1 := by
    rw [List.length_append, List.length_singleton]
  -- the byte goes to a place that has been read, or is behind the text
  have hstay : (overlay base o (done ++ [UInt8.ofNat (x * 16 + y)]))[ptr]? =
      some (rest.headD 0) := by
    rw [← set_overlay hlt, List.getElem?_set_ne, h.head]
    rcases h.apart with hbefore | hbehind
    · rw [List.length_cons, List.length_singleton] at hbefore
      omega
    · omega
  have hturn : hexTurn getMath o (hexAt base o ptr done [x, y]) =
      hexTurn getMath o (hexAt base o ptr (done ++ [UInt8.ofNat (x * 16 + y)]) []) := by
    unfold hexTurn hexAt
    simp only [h.head, hstay, Option.bind_eq_bind, Option.bind_some, hig, Bool.false_eq_true,
      if_false, List.length_cons, List.length_nil, Nat.zero_add, Nat.reduceAdd, if_true, accum,
      hstore, Option.map_some, hlength]
    rfl
  rw [hexLoop, hexLoop, hturn]

/-- A digit that is not the `0` of `0x`. -/
theorem hexLoop_digit (h : Clear base o ptr done pend (ch :: rest)) (hd : hexDigit ch = some d)
    (hnext : rest.headD 0 ≠ 120) (hpend : pend.length < 2) :
    hexLoop getMath o (fuel + 1) (hexAt base o ptr done pend) =
      hexLoop getMath o fuel (hexAt base o (ptr + 1) done (pend ++ [d])) := by
  obtain ⟨hig, hzero, hblank, -⟩ := ne_of_digit hd
  have hlt := hexDigit_lt hd
  have hx : ¬(ch = 48 ∧ (overlay base o done)[ptr + 1]? = some 120) := by
    rintro ⟨-, hx⟩
    rw [h.second] at hx
    exact hnext (Option.some.inj hx)
  rw [hexLoop, hexTurn, hexAt, h.head]
  simp only [List.headD_cons, Option.bind_eq_bind, Option.bind_some, hig, Bool.false_eq_true,
    if_false, hpend.ne, h.head, hblank, hzero, hx, hex2int_of_digit hd]
  match pend, hpend with
  | [], _ =>
    have hc : (accum [] * 16 + UInt8.ofNat d ||| accum []) <<< 4 = accum [d] := upper_digit hlt
    simp only [List.length_nil, if_true, hc]
    rfl
  | [x], _ =>
    have hc : accum [x] * 16 + UInt8.ofNat d ||| accum [x] = accum [x, d] :=
      lower_digit (h.digit x (List.mem_singleton_self x)) hlt
    simp only [List.length_singleton, one_ne_zero, if_false, hc]
    rfl

/-- The end of the text. -/
theorem hexLoop_end (h : Clear base o ptr done pend []) (hpend : pend.length < 2) :
    hexLoop getMath o (fuel + 1) (hexAt base o ptr done pend) =
      some (done.length, overlay base o done) := by
  rw [hexLoop, hexTurn, hexAt, h.head]
  simp only [List.headD_nil, Option.bind_eq_bind, Option.bind_some,
    show ignored 0 = false by decide, Bool.false_eq_true, if_false, hpend.ne, h.head,
    show (0 : u8) ≠ 32 by decide, if_true]
  rfl

/-- A character that is no digit. -/
theorem hexLoop_other (h : Clear base o ptr done pend (ch :: rest)) (hig : ignored ch = false)
    (hzero : ch ≠ 0) (hd : hexDigit ch = none) (hpend : pend.length < 2) :
    hexLoop getMath o (fuel + 1) (hexAt base o ptr done pend) =
      some (0, overlay base o done) := by
  have hblank : ch ≠ 32 := by
    rintro rfl
    exact absurd hig (by decide)
  have hx : ¬(ch = 48 ∧ (overlay base o done)[ptr + 1]? = some 120) := by
    rintro ⟨rfl, -⟩
    exact absurd hd (by decide)
  rw [hexLoop, hexTurn, hexAt, h.head]
  simp only [List.headD_cons, Option.bind_eq_bind, Option.bind_some, hig, Bool.false_eq_true,
    if_false, hpend.ne, h.head, hblank, hzero, hx, hex2int_eq_none_iff.mpr hd]
  rfl

/-! ## The loop -/

/-- How the loop is to end: with what the digits that are left come to, or
with 0 if there is anything else. -/
def HexEnds (base : List u8) (o : ℕ) (done : List u8) (pend : List ℕ) (rest : List u8)
    (r : Option (ℕ × List u8)) : Prop :=
  match (significant rest).mapM hexDigit with
  | some ds => r = some ((done ++ packed (pend ++ ds)).length,
      overlay base o (done ++ packed (pend ++ ds)))
  | none => ∃ mem, r = some (0, mem)

theorem significant_ignored (hig : ignored ch = true) : significant (ch :: rest) = significant rest :=
  List.filter_cons_of_neg (by simp [hig])

theorem significant_cons (hig : ignored ch = false) :
    significant (ch :: rest) = ch :: significant rest := List.filter_cons_of_pos (by simp [hig])

/-- One digit of the text is one more of the byte under way. -/
theorem HexEnds.cons (h : HexEnds base o done (pend ++ [d]) rest r) (hd : hexDigit ch = some d) :
    HexEnds base o done pend (ch :: rest) r := by
  unfold HexEnds at h ⊢
  rw [significant_cons (ne_of_digit hd).1, List.mapM_cons, hd]
  cases hds : (significant rest).mapM hexDigit with
  | none =>
    rw [hds] at h
    exact h
  | some ds =>
    rw [hds] at h
    simpa using h

/-- A character that is passed over. -/
theorem HexEnds.passed (h : HexEnds base o done pend rest r) (hig : ignored ch = true) :
    HexEnds base o done pend (ch :: rest) r := by
  unfold HexEnds at h ⊢
  rwa [significant_ignored hig]

/-- A byte that is complete may have been stored. -/
theorem HexEnds.flush {x y : ℕ} (h : HexEnds base o (done ++ [UInt8.ofNat (x * 16 + y)]) [] rest r) :
    HexEnds base o done [x, y] rest r := by
  unfold HexEnds at h ⊢
  cases hds : (significant rest).mapM hexDigit with
  | none =>
    rw [hds] at h
    exact h
  | some ds =>
    rw [hds] at h
    simpa [packed] using h

/-- With no byte complete, the loop goes on by the next character. -/
theorem HexEnds.turn (h : Clear base o ptr done pend rest) (hzero : 0 ∉ rest) (hx : 120 ∉ rest)
    (hpend : pend.length < 2)
    (ih : ∀ ch tail, rest = ch :: tail → ∀ pend', Clear base o (ptr + 1) done pend' tail →
      HexEnds base o done pend' tail (hexLoop getMath o fuel (hexAt base o (ptr + 1) done pend'))) :
    HexEnds base o done pend rest
      (hexLoop getMath o (fuel + 1) (hexAt base o ptr done pend)) := by
  cases rest with
  | nil =>
    have hnone : packed (pend ++ []) = [] := by
      match pend, hpend with
      | [], _ => rfl
      | [x], _ => rfl
    have hds : (significant []).mapM hexDigit = some [] := rfl
    rw [hexLoop_end h hpend]
    unfold HexEnds
    rw [hds]
    dsimp only
    rw [hnone, List.append_nil]
  | cons ch tail =>
    obtain ⟨hch, htail⟩ := not_or.mp (List.mem_cons.not.mp hzero)
    obtain ⟨-, hxtail⟩ := not_or.mp (List.mem_cons.not.mp hx)
    cases hig : ignored ch with
    | true =>
      have hnext : Clear base o (ptr + 1) done pend tail :=
        h.next (by rw [significant_ignored hig]) (Nat.le_succ _) h.few h.digit
      rw [hexLoop_ignored h hig]
      exact (ih ch tail rfl pend hnext).passed hig
    | false =>
      cases hd : hexDigit ch with
      | none =>
        rw [hexLoop_other h hig (Ne.symm hch) hd hpend]
        unfold HexEnds
        rw [significant_cons hig, List.mapM_cons, hd]
        exact ⟨_, rfl⟩
      | some d =>
        have hnext : tail.headD 0 ≠ 120 := by
          cases tail with
          | nil => decide
          | cons e tail =>
            rintro rfl
            exact hxtail List.mem_cons_self
        have hdigit : ∀ x ∈ pend ++ [d], x < 16 := by
          intro x hxmem
          rcases List.mem_append.mp hxmem with hmem | hmem
          · exact h.digit x hmem
          · exact List.mem_singleton.mp hmem ▸ hexDigit_lt hd
        rw [hexLoop_digit h hd hnext hpend]
        refine (ih ch tail rfl _ (h.next ?_ ?_ ?_ hdigit)).cons hd
        · rw [significant_cons hig, List.length_append, List.length_singleton, List.length_cons]
          omega
        · rw [List.length_append, List.length_singleton]
        · rw [List.length_append, List.length_singleton]
          omega

/-- A byte that is complete is as good as one that has been stored. -/
theorem Clear.flush {x y : ℕ} (h : Clear base o ptr done [x, y] rest) :
    Clear base o ptr (done ++ [UInt8.ofNat (x * 16 + y)]) [] rest := by
  have hroom := h.room
  rw [List.length_cons, List.length_singleton] at hroom
  refine ⟨h.string, ?_, ?_, Nat.zero_le _, fun x hx => absurd hx List.not_mem_nil⟩
  · rw [List.length_append, List.length_singleton, List.length_nil]
    omega
  · rcases h.apart with hbefore | hbehind
    · rw [List.length_cons, List.length_singleton] at hbefore
      rw [List.length_append, List.length_singleton, List.length_nil]
      exact Or.inl (by omega)
    · exact Or.inr hbehind

/-- **The loop**, by the characters that are left. -/
theorem hexLoop_ends_text (h : Clear base o ptr done pend rest) (hzero : 0 ∉ rest) (hx : 120 ∉ rest)
    (hfuel : rest.length < fuel) :
    HexEnds base o done pend rest (hexLoop getMath o fuel (hexAt base o ptr done pend)) := by
  induction fuel generalizing ptr done pend rest with
  | zero => omega
  | succ fuel ih =>
    have hnext : ∀ {done' ch tail}, rest = ch :: tail → ∀ pend',
        Clear base o (ptr + 1) done' pend' tail → HexEnds base o done' pend' tail
          (hexLoop getMath o fuel (hexAt base o (ptr + 1) done' pend')) := by
      rintro done' ch tail rfl pend' hclear
      rw [List.length_cons] at hfuel
      exact ih hclear (fun hmem => hzero (List.mem_cons_of_mem _ hmem))
        (fun hmem => hx (List.mem_cons_of_mem _ hmem)) (by omega)
    match pend, h with
    | [], h => exact HexEnds.turn h hzero hx (by decide) fun ch tail => hnext
    | [p], h => exact HexEnds.turn h hzero hx (by simp) fun ch tail => hnext
    | [p, q], h =>
      cases hig : ignored (rest.headD 0) with
      | true =>
        -- the byte waits for a character that is not passed over
        cases rest with
        | nil => exact absurd hig (by decide)
        | cons ch tail =>
          have hig : ignored ch = true := hig
          have hclear : Clear base o (ptr + 1) done [p, q] tail :=
            h.next (by rw [significant_ignored hig]) (Nat.le_succ _) h.few h.digit
          rw [hexLoop_ignored h hig]
          exact (hnext rfl [p, q] hclear).passed hig
      | false =>
        rw [hexLoop_flush h hig]
        exact (HexEnds.turn h.flush hzero hx (by simp) fun ch tail => hnext).flush
    | p :: q :: s :: pend, h => exact absurd h.few (by simp)

/-! ## Texts -/

variable {inp : ℕ}

theorem HexPlace.clear (h : HexPlace mem inp o text) : Clear mem o inp [] [] text := by
  refine ⟨h.string, by simpa using h.room, ?_, Nat.zero_le _, fun x hx => absurd hx List.not_mem_nil⟩
  rcases h.apart with hle | hlt
  · exact Or.inl (by simpa using hle)
  · exact Or.inr hlt

theorem HexPlace.ends (getMath : List u8 → ut64) (h : HexPlace mem inp o text) (hzero : 0 ∉ text)
    (hx : 120 ∉ text) :
    HexEnds mem o [] [] text (hexstr2binstr getMath mem inp o) := by
  obtain ⟨behind, htext⟩ := h.string
  have hlength : text.length < mem.length := by
    have hdrop := congrArg List.length htext
    rw [List.length_drop, List.length_append, List.length_cons] at hdrop
    omega
  have hstart : hexAt mem o inp [] [] = ⟨mem, inp, 0, 0, 0⟩ := by
    unfold hexAt
    rw [overlay_nil]
    rfl
  unfold hexstr2binstr
  rw [← hstart]
  exact hexLoop_ends_text h.clear hzero hx (by omega)

/-- The characters of a text that renders bytes. -/
theorem Renders.char (h : Renders text b) (hc : c ∈ text) : c ≠ 0 ∧ c ≠ 120 := by
  cases hig : ignored c with
  | true =>
    refine ⟨?_, ?_⟩
    all_goals
      rintro rfl
      exact absurd hig (by decide)
  | false =>
    have hmem : hexDigit c ∈ (significant text).map hexDigit :=
      List.mem_map_of_mem (List.mem_filter.mpr ⟨hc, by simp [hig]⟩)
    rw [h] at hmem
    obtain ⟨x, -, hx⟩ := List.mem_map.mp hmem
    obtain ⟨-, hzero, -, hx⟩ := ne_of_digit hx.symm
    exact ⟨hzero, hx⟩

/-- **A text gives the bytes that it renders.** -/
theorem HexPlace.renders (getMath : List u8 → ut64) (h : HexPlace mem inp o text)
    (hb : Renders text b) :
    hexstr2binstr getMath mem inp o = some (b.length, overlay mem o b) := by
  have hends := h.ends getMath (fun hmem => (hb.char hmem).1 rfl)
    (fun hmem => (hb.char hmem).2 rfl)
  have hds : (significant text).mapM hexDigit = some (nibbles b) := by
    have hmap : ((significant text).map hexDigit).mapM id = (significant text).mapM hexDigit :=
      List.mapM_map
    rw [← hmap, hb, List.mapM_map]
    exact (List.mapM_pure (f := id)).trans (by rw [List.map_id]; rfl)
  unfold HexEnds at hends
  rw [hds] at hends
  dsimp only at hends
  rwa [List.nil_append, List.nil_append, packed_nibbles] at hends

/-- **A character that is none of the others makes the value 0.** -/
theorem HexPlace.other (getMath : List u8 → ut64) (h : HexPlace mem inp o text) (hzero : 0 ∉ text)
    (hx : 120 ∉ text) (hc : c ∈ text) (hig : ignored c = false) (hd : hexDigit c = none) :
    ∃ mem', hexstr2binstr getMath mem inp o = some (0, mem') := by
  have hends := h.ends getMath hzero hx
  have hnone : (significant text).mapM hexDigit = none := by
    have hmem : c ∈ significant text := List.mem_filter.mpr ⟨hc, by rw [hig]; rfl⟩
    obtain ⟨pre, post, hsplit⟩ := List.append_of_mem hmem
    rw [hsplit, List.mapM_append, List.mapM_cons, hd]
    cases pre.mapM hexDigit <;> rfl
  unfold HexEnds at hends
  rwa [hnone] at hends

/-- **What `hexstr2binstr` makes of a text.** The bytes that it renders come
out, wherever characters are passed over, and their number is returned; a
text without `x` that has any other character makes it return 0. -/
theorem hexstr2binstr_text (getMath : List u8 → ut64) (h : HexPlace mem inp o text) :
    (∀ b, Renders text b →
        hexstr2binstr getMath mem inp o = some (b.length, overlay mem o b)) ∧
      (0 ∉ text → 120 ∉ text → (∃ c ∈ text, ignored c = false ∧ hexDigit c = none) →
        ∃ mem', hexstr2binstr getMath mem inp o = some (0, mem')) := by
  refine ⟨fun b hb => h.renders getMath hb, fun hzero hx hother => ?_⟩
  obtain ⟨c, hc, hig, hd⟩ := hother
  exact h.other getMath hzero hx hc hig hd

/-- `4:1`, where it stands. -/
theorem hexstr2binstr_split :
    hexstr2binstr (fun _ => 0) [52, 58, 49, 0] 0 0 = some (1, [65, 58, 49, 0]) ∧
      ∃ mem', hexstr2binstr (fun _ => 0) [52, 103, 0] 0 0 = some (0, mem') := by
  have hfirst : HexPlace [52, 58, 49, 0] 0 0 [52, 58, 49] :=
    ⟨⟨[], rfl⟩, by decide, Or.inl le_rfl⟩
  have hsecond : HexPlace [52, 103, 0] 0 0 [52, 103] := ⟨⟨[], rfl⟩, by decide, Or.inl le_rfl⟩
  exact ⟨(hexstr2binstr_text (fun _ => 0) hfirst).1 [65] rfl,
    (hexstr2binstr_text (fun _ => 0) hsecond).2 (by decide) (by decide) ⟨103, by decide⟩⟩

end Radare
