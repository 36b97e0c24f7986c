import Radare.Model.Text
import Radare.Rio.Decode
/-!
# The buffers of a write

`radare_write` makes two copies of its argument, `arg` and `str`, each of
`strlen + 1` bytes. It decodes the second in place, and then ends the first
behind as many bytes as came out (`arg[len] = 0`). Here every index into a
copy is looked at: there is no result where one is not inside, nor where
`strcpy` copies a text over itself.

`escape_buffer` only shortens its text (`escapesText`), so that a string stays
inside its copies as long as nothing is copied over itself (`string_inside_iff`);
a wide one doubles what is left (`wide_inside_iff`).
-/

namespace Radare

variable {getMath : List u8 → ut64} {arg buf done rest junk out l : List u8} {mode : WMode}
  {i n len fuel : ℕ} {c : u8}

/-! ## The code -/

/-- An escape of two characters, which is the character given. -/
def escapeShort (buf : List u8) (i : ℕ) (c : u8) : Option (Option (List u8)) :=
  (store buf i c).bind fun buf => (strcpyWithin buf (i + 1) (i + 2)).map some

/-- An escape of four. -/
def escapeHex (buf : List u8) (i : ℕ) : Option (Option (List u8)) :=
  buf[i + 2]?.bind fun a =>
    if a = 0 then some none
    else buf[i + 3]?.bind fun b =>
      if b = 0 then some none
      else
        match hex2int 0 a, hex2int 0 b with
        | some ch, some ch2 =>
          (store buf i ((ch <<< 4) + ch2)).bind fun buf =>
            (strcpyWithin buf (i + 1) (i + 4)).map some
        | _, _ => some none

/-- What stands behind a backslash; `some none` is the complaint. -/
def escapeTurn (buf : List u8) (i : ℕ) : Option (Option (List u8)) :=
  buf[i + 1]?.bind fun c =>
    if c = 101 then escapeShort buf i 0x1b
    else if c = 114 then escapeShort buf i 0x0d
    else if c = 110 then escapeShort buf i 0x0a
    else if c = 120 then escapeHex buf i
    else some none

/-- The loop of `escape_buffer`: the value returned, and the buffer. Every
turn steps on, so one for each byte is enough. -/
def escapeLoop : ℕ → List u8 → ℕ → Option (ℕ × List u8)
  | 0, _, _ => none
  | fuel + 1, buf, i =>
    buf[i]?.bind fun c =>
      if c = 0 then some (i, buf)
      else if c = 92 then
        (escapeTurn buf i).bind fun r =>
          match r with
          | none => some (0, buf)
          | some buf => escapeLoop fuel buf (i + 1)
      else escapeLoop fuel buf (i + 1)

/-- The test for `0x` in front. -/
def startsHex (arg : List u8) : Option Bool :=
  arg[0]?.bind fun c => if c = 48 then arg[1]?.map (· = 120) else some false

/-- The loop that puts a zero behind each byte, in a buffer of its own. -/
def widen (n : ℕ) (str : List u8) : Option (List u8) :=
  (List.range (2 * n)).mapM fun i => if i % 2 = 1 then some 0 else str[i / 2]?

/-- The decoders: `len`, and the buffer that is `str` then. -/
def decodeStr (getMath : List u8 → ut64) (str : List u8) : WMode → Option (ℕ × List u8)
  | .char => some (0, str)
  | .string => escapeLoop str.length str 0
  | .wstring =>
    (escapeLoop str.length str 0).bind fun (n, str) => (widen n str).map fun tmp => (2 * n, tmp)
  | .hex => hexstr2binstr getMath str 0 0

/-- What is looked at once `len` is known: `arg[len]`, and `len` bytes of
`str`. -/
def indexCopies (arg : List u8) (len : ℕ) (str : List u8) : Option (List u8) :=
  if len = 0 then some []
  else (store arg len 0).bind fun _ => (List.range len).mapM fun i => str[i]?

/-- `radare_write`, of an argument in its two copies, up to the bytes it
hands on. -/
def writeBuffers (getMath : List u8 → ut64) (arg : List u8) (mode : WMode) : Option (List u8) :=
  let copy := arg ++ [0]
  (startsHex copy).bind fun hex =>
    (decodeStr getMath copy (if hex then .hex else mode)).bind fun (len, str) =>
      indexCopies copy len str

/-! ## `escape_buffer` in its buffer -/

/-- A text is moved down over what is before it, where that is longer. -/
theorem strcpyWithin_eq (front mid junk : List u8) (hrest : 0 ∉ rest)
    (hapart : rest.length < mid.length) :
    ∃ junk', strcpyWithin (front ++ mid ++ rest ++ 0 :: junk) front.length
        (front.length + mid.length) = some (front ++ rest ++ 0 :: junk') := by
  have hdrop : (front ++ mid ++ rest ++ 0 :: junk).drop (front.length + mid.length) =
      rest ++ 0 :: junk := by
    rw [List.append_assoc _ rest, ← List.length_append, List.drop_left]
  have htake : (front ++ mid ++ rest ++ 0 :: junk).take front.length = front := by
    rw [List.append_assoc, List.append_assoc, List.take_left]
  refine ⟨(front ++ mid ++ rest ++ 0 :: junk).drop (front.length + rest.length + 1), ?_⟩
  unfold strcpyWithin strcpyAt
  rw [hdrop, cstr_front hrest, if_pos ⟨by simp, by omega⟩, htake, if_pos (by simp; omega)]

/-- And otherwise it would be copied over itself. -/
theorem strcpyWithin_eq_none (front mid junk : List u8) (hrest : 0 ∉ rest)
    (hover : mid.length ≤ rest.length) :
    strcpyWithin (front ++ mid ++ rest ++ 0 :: junk) front.length (front.length + mid.length) =
      none := by
  have hdrop : (front ++ mid ++ rest ++ 0 :: junk).drop (front.length + mid.length) =
      rest ++ 0 :: junk := by
    rw [List.append_assoc _ rest, ← List.length_append, List.drop_left]
  unfold strcpyWithin
  rw [hdrop, cstr_front hrest, if_neg fun h => by omega]

theorem getElem?_behind (done l : List u8) (k : ℕ) : (done ++ l)[done.length + k]? = l[k]? := by
  rw [List.getElem?_append_right (Nat.le_add_right _ _), Nat.add_sub_cancel_left]

theorem store_at (done : List u8) (b c : u8) (l : List u8) :
    store (done ++ b :: l) done.length c = some (done ++ c :: l) := by
  unfold store
  rw [if_pos (by simp), List.set_append_right _ _ (Nat.le_refl _), Nat.sub_self]
  rfl

/-- An escape read, and the rest moved down to it. -/
theorem escape_moved (done mid junk : List u8) (b c : u8) (hrest : 0 ∉ rest)
    (hapart : rest.length < mid.length) :
    ∃ junk', ((store (done ++ b :: (mid ++ rest ++ 0 :: junk)) done.length c).bind fun buf =>
        (strcpyWithin buf (done.length + 1) (done.length + 1 + mid.length)).map some) =
      some (some (done ++ [c] ++ rest ++ 0 :: junk')) := by
  obtain ⟨junk', hcopy⟩ := strcpyWithin_eq (done ++ [c]) mid junk hrest hapart
  refine ⟨junk', ?_⟩
  -- what stood between the character and the rest is gone over
  have hlist : done ++ c :: (mid ++ rest ++ 0 :: junk) =
      done ++ [c] ++ mid ++ rest ++ 0 :: junk := by simp
  rw [List.length_append, List.length_singleton] at hcopy
  rw [store_at, Option.bind_some, hlist, hcopy, Option.map_some]

/-- An escape with too much behind it. -/
theorem escape_stuck (done mid junk : List u8) (b c : u8) (hrest : 0 ∉ rest)
    (hover : mid.length ≤ rest.length) :
    ((store (done ++ b :: (mid ++ rest ++ 0 :: junk)) done.length c).bind fun buf =>
      (strcpyWithin buf (done.length + 1) (done.length + 1 + mid.length)).map some) = none := by
  have hcopy := strcpyWithin_eq_none (done ++ [c]) mid junk hrest hover
  have hlist : done ++ c :: (mid ++ rest ++ 0 :: junk) =
      done ++ [c] ++ mid ++ rest ++ 0 :: junk := by simp
  rw [List.length_append, List.length_singleton] at hcopy
  rw [store_at, Option.bind_some, hlist, hcopy, Option.map_none]

/-- How the loop is to end, of what is still to be read. -/
def EscapedTo (done : List u8) (r : Option (ℕ × List u8)) : Option (List u8) → Prop
  | none => ∃ buf, r = some (0, buf)
  | some out => ∃ junk, r = some (done.length + out.length, done ++ out ++ 0 :: junk)

/-- One character more in front. -/
theorem EscapedTo.cons {r : Option (ℕ × List u8)} {o : Option (List u8)}
    (h : EscapedTo (done ++ [c]) r o) : EscapedTo done r (o.map (c :: ·)) := by
  cases o with
  | none => exact h
  | some out =>
    obtain ⟨junk, hr⟩ := h
    have hlength : (done ++ [c]).length + out.length = done.length + (c :: out).length := by
      rw [List.length_append, List.length_singleton, List.length_cons]
      omega
    refine ⟨junk, hr.trans ?_⟩
    rw [hlength, List.append_assoc done]
    rfl

/-- A turn that reads a character as it is. -/
theorem escapeLoop_plain (hzero : c ≠ 0) (hc : c ≠ 92) :
    escapeLoop (fuel + 1) (done ++ c :: l) done.length =
      escapeLoop fuel (done ++ [c] ++ l) (done ++ [c]).length := by
  have hget : (done ++ c :: l)[done.length]? = some c := getElem?_behind done (c :: l) 0
  rw [escapeLoop, hget, Option.bind_some, if_neg hzero, if_neg hc, List.append_assoc,
    List.length_append]
  rfl

/-- A turn that reads an escape, and one that complains. -/
theorem escapeLoop_escape (fuel : ℕ)
    (hturn : escapeTurn (done ++ 92 :: l) done.length = some (some buf)) :
    escapeLoop (fuel + 1) (done ++ 92 :: l) done.length =
      escapeLoop fuel buf (done.length + 1) := by
  have hget : (done ++ 92 :: l)[done.length]? = some 92 := getElem?_behind done (92 :: l) 0
  rw [escapeLoop, hget, Option.bind_some, if_neg (by decide), if_pos rfl, hturn]
  rfl

theorem escapeLoop_stuck (hturn : escapeTurn (done ++ 92 :: l) done.length = none) :
    escapeLoop (fuel + 1) (done ++ 92 :: l) done.length = none := by
  have hget : (done ++ 92 :: l)[done.length]? = some 92 := getElem?_behind done (92 :: l) 0
  rw [escapeLoop, hget, Option.bind_some, if_neg (by decide), if_pos rfl, hturn]
  rfl

theorem escapeLoop_complaint (hturn : escapeTurn (done ++ 92 :: l) done.length = some none) :
    escapeLoop (fuel + 1) (done ++ 92 :: l) done.length = some (0, done ++ 92 :: l) := by
  have hget : (done ++ 92 :: l)[done.length]? = some 92 := getElem?_behind done (92 :: l) 0
  rw [escapeLoop, hget, Option.bind_some, if_neg (by decide), if_pos rfl, hturn]
  rfl

/-- What the turn looks at behind the backslash. -/
theorem escapeTurn_eq (done l : List u8) :
    escapeTurn (done ++ 92 :: l) done.length = l[0]?.bind fun c =>
      if c = 101 then escapeShort (done ++ 92 :: l) done.length 0x1b
      else if c = 114 then escapeShort (done ++ 92 :: l) done.length 0x0d
      else if c = 110 then escapeShort (done ++ 92 :: l) done.length 0x0a
      else if c = 120 then escapeHex (done ++ 92 :: l) done.length
      else some none := by
  unfold escapeTurn
  rw [getElem?_behind done (92 :: l) 1]
  rfl

theorem escapeHex_eq (done l : List u8) :
    escapeHex (done ++ 92 :: l) done.length = l[1]?.bind fun a =>
      if a = 0 then some none
      else l[2]?.bind fun b =>
        if b = 0 then some none
        else
          match hex2int 0 a, hex2int 0 b with
          | some ch, some ch2 =>
            (store (done ++ 92 :: l) done.length ((ch <<< 4) + ch2)).bind fun buf =>
              (strcpyWithin buf (done.length + 1) (done.length + 4)).map some
          | _, _ => some none := by
  unfold escapeHex
  rw [getElem?_behind done (92 :: l) 2, getElem?_behind done (92 :: l) 3]
  rfl

/-- The loop does with a text what it should, wherever it comes to it, unless what
is behind an escape is copied over itself. -/
def EscapesText (rest : List u8) : Prop :=
  ∀ (done junk : List u8) (fuel : ℕ), rest.length < fuel →
    if escapesApart rest then
      EscapedTo done (escapeLoop fuel (done ++ (rest ++ 0 :: junk)) done.length) (escapeBuffer rest)
    else escapeLoop fuel (done ++ (rest ++ 0 :: junk)) done.length = none

/-- An escape of two characters, with one in its place. -/
theorem escapes_short {d : u8} (hrest : 0 ∉ rest) (ih : EscapesText rest)
    (hapart : escapesApart (92 :: d :: rest) = decide (rest = []))
    (hturn : ∀ done l, escapeTurn (done ++ 92 :: d :: l) done.length =
      escapeShort (done ++ 92 :: d :: l) done.length c)
    (heq : escapeBuffer (92 :: d :: rest) = (escapeBuffer rest).map (c :: ·)) :
    EscapesText (92 :: d :: rest) := by
  intro done junk fuel hfuel
  rw [List.length_cons, List.length_cons] at hfuel
  obtain ⟨fuel, rfl⟩ : ∃ m, fuel = m + 1 := ⟨fuel - 1, by omega⟩
  rw [hapart]
  by_cases hnil : rest = []
  · subst hnil
    obtain ⟨junk', hmoved⟩ := escape_moved done [d] junk 92 c hrest Nat.zero_lt_one
    have hloop := escapeLoop_escape fuel ((hturn done _).trans hmoved)
    have h := EscapedTo.cons ((if_pos rfl).mp (ih (done ++ [c]) junk' fuel (by omega)))
    rw [List.length_append, List.length_singleton, ← List.append_assoc, ← hloop] at h
    rw [if_pos (decide_eq_true rfl), heq]
    exact h
  · have hpos := List.length_pos_iff.mpr hnil
    have hstuck := escape_stuck done [d] junk 92 c hrest hpos
    rw [if_neg (by simpa using hnil)]
    exact escapeLoop_stuck ((hturn done _).trans hstuck)

/-- And one of four. -/
theorem escapes_hex {a b ch ch2 : u8} (hne : a ≠ 0 ∧ b ≠ 0) (hrest : 0 ∉ rest)
    (ih : EscapesText rest) (ha : hex2int 0 a = some ch) (hb : hex2int 0 b = some ch2) :
    EscapesText (92 :: 120 :: a :: b :: rest) := by
  intro done junk fuel hfuel
  simp only [List.length_cons] at hfuel
  obtain ⟨fuel, rfl⟩ : ∃ m, fuel = m + 1 := ⟨fuel - 1, by omega⟩
  have hturn : escapeTurn (done ++ 92 :: ([120, a, b] ++ rest ++ 0 :: junk)) done.length =
      (store (done ++ 92 :: ([120, a, b] ++ rest ++ 0 :: junk)) done.length
        ((ch <<< 4) + ch2)).bind fun buf =>
          (strcpyWithin buf (done.length + 1) (done.length + 1 + [120, a, b].length)).map some := by
    refine (escapeTurn_eq done _).trans ((escapeHex_eq done _).trans ?_)
    have ha0 : ([120, a, b] ++ rest ++ 0 :: junk)[1]? = some a := rfl
    have hb0 : ([120, a, b] ++ rest ++ 0 :: junk)[2]? = some b := rfl
    rw [ha0, Option.bind_some, if_neg hne.1, hb0, Option.bind_some, if_neg hne.2, ha, hb]
    rfl
  have hapart : escapesApart (92 :: 120 :: a :: b :: rest) =
      (decide (rest.length < 3) && escapesApart rest) := by rw [escapesApart, ha, hb]
  rw [hapart]
  by_cases hshort : rest.length < 3
  · obtain ⟨junk', hmoved⟩ := escape_moved done [120, a, b] junk 92 ((ch <<< 4) + ch2) hrest hshort
    have hloop := escapeLoop_escape fuel (hturn.trans hmoved)
    have h := ih (done ++ [(ch <<< 4) + ch2]) junk' fuel (by omega)
    rw [List.length_append, List.length_singleton, ← List.append_assoc, ← hloop] at h
    rw [decide_eq_true hshort, Bool.true_and, escapeBuffer, ha, hb]
    split_ifs with hrestApart
    · rw [if_pos hrestApart] at h
      exact h.cons
    · rw [if_neg hrestApart] at h
      exact h
  · have hstuck := escape_stuck done [120, a, b] junk 92 ((ch <<< 4) + ch2) hrest (not_lt.mp hshort)
    rw [decide_eq_false hshort, Bool.false_and, if_neg Bool.false_ne_true]
    exact escapeLoop_stuck (hturn.trans hstuck)

/-- A complaint. -/
theorem escapes_complaint (hapart : escapesApart (92 :: rest) = true)
    (hturn : ∀ done junk, escapeTurn (done ++ 92 :: (rest ++ 0 :: junk)) done.length = some none)
    (heq : escapeBuffer (92 :: rest) = none) : EscapesText (92 :: rest) := by
  intro done junk fuel hfuel
  obtain ⟨fuel, rfl⟩ : ∃ m, fuel = m + 1 := ⟨fuel - 1, by omega⟩
  rw [hapart, if_pos rfl, heq]
  exact ⟨_, escapeLoop_complaint (hturn done junk)⟩

/-- `\x` with something that is no digit. -/
theorem escapes_bad {a b : u8} (hne : a ≠ 0 ∧ b ≠ 0)
    (hbad : ∀ ch ch2, hex2int 0 a = some ch → hex2int 0 b = some ch2 → False) :
    EscapesText (92 :: 120 :: a :: b :: rest) := by
  have hnone : ∀ {β : Type} (f : u8 → u8 → β) (z : β), (match hex2int 0 a, hex2int 0 b with
      | some ch, some ch2 => f ch ch2
      | _, _ => z) = z := by
    intro β f z
    split
    · rename_i ha hb
      exact (hbad _ _ ha hb).elim
    · rfl
  refine escapes_complaint ?_ (fun done junk => ?_) ?_
  · rw [escapesApart.eq_5]
    exact hnone _ _
  · refine (escapeTurn_eq done _).trans ((escapeHex_eq done _).trans ?_)
    have ha1 : (120 :: a :: b :: rest ++ 0 :: junk)[1]? = some a := rfl
    have hb1 : (120 :: a :: b :: rest ++ 0 :: junk)[2]? = some b := rfl
    rw [ha1, Option.bind_some, if_neg hne.1, hb1, Option.bind_some, if_neg hne.2]
    exact hnone _ _
  · rw [escapeBuffer.eq_5]
    exact hnone _ _

/-- Any other character behind the backslash, or none. -/
theorem escapes_unknown (he : ∀ tail, rest = 101 :: tail → False)
    (hr : ∀ tail, rest = 114 :: tail → False) (hn : ∀ tail, rest = 110 :: tail → False)
    (hx : ∀ a b tail, rest = 120 :: a :: b :: tail → False) : EscapesText (92 :: rest) := by
  refine escapes_complaint (escapesApart.eq_6 rest he hr hn hx) (fun done junk => ?_)
    (escapeBuffer.eq_6 rest he hr hn hx)
  rw [escapeTurn_eq]
  cases rest with
  | nil => rfl
  | cons d tail =>
    have hd : (d :: tail ++ 0 :: junk)[0]? = some d := rfl
    rw [hd, Option.bind_some, if_neg (by rintro rfl; exact he tail rfl),
      if_neg (by rintro rfl; exact hr tail rfl), if_neg (by rintro rfl; exact hn tail rfl)]
    split_ifs with h120
    swap
    · rfl
    subst h120
    -- the text ends before its two digits
    rw [escapeHex_eq]
    rcases tail with _ | ⟨a, _ | ⟨b, tail⟩⟩
    · rfl
    · show (if a = 0 then some none else some none) = some none
      exact ite_self _
    · exact (hx a b tail rfl).elim

/-- A character that stands for itself. -/
theorem escapes_plain (hzero : c ≠ 0) (hc : c ≠ 92) (ih : EscapesText rest)
    (hapart : escapesApart (c :: rest) = escapesApart rest)
    (heq : escapeBuffer (c :: rest) = (escapeBuffer rest).map (c :: ·)) :
    EscapesText (c :: rest) := by
  intro done junk fuel hfuel
  rw [List.length_cons] at hfuel
  obtain ⟨fuel, rfl⟩ : ∃ m, fuel = m + 1 := ⟨fuel - 1, by omega⟩
  have h := ih (done ++ [c]) junk fuel (by omega)
  rw [List.cons_append, escapeLoop_plain hzero hc, heq, hapart]
  split_ifs with hrest
  · rw [if_pos hrest] at h
    exact h.cons
  · rw [if_neg hrest] at h
    exact h

/-- **`escape_buffer` is the function of its string**, in its buffer, where it copies
nothing over itself. -/
theorem escapesText (hrest : 0 ∉ rest) : EscapesText rest := by
  induction rest using escapeBuffer.induct with
  | case1 =>
    intro done junk fuel hfuel
    obtain ⟨fuel, rfl⟩ : ∃ m, fuel = m + 1 := ⟨fuel - 1, by omega⟩
    have hget : (done ++ 0 :: junk)[done.length]? = some 0 := getElem?_behind done (0 :: junk) 0
    refine (if_pos rfl).mpr ⟨junk, ?_⟩
    rw [List.nil_append, escapeLoop, hget, Option.bind_some, if_pos rfl, List.append_nil]
    rfl
  | case2 rest ih =>
    have hrest' : 0 ∉ rest := fun h => hrest (List.mem_cons_of_mem _ (List.mem_cons_of_mem _ h))
    exact escapes_short hrest' (ih hrest') rfl (fun done l => escapeTurn_eq done (101 :: l)) rfl
  | case3 rest ih =>
    have hrest' : 0 ∉ rest := fun h => hrest (List.mem_cons_of_mem _ (List.mem_cons_of_mem _ h))
    exact escapes_short hrest' (ih hrest') rfl (fun done l => escapeTurn_eq done (114 :: l)) rfl
  | case4 rest ih =>
    have hrest' : 0 ∉ rest := fun h => hrest (List.mem_cons_of_mem _ (List.mem_cons_of_mem _ h))
    exact escapes_short hrest' (ih hrest') rfl (fun done l => escapeTurn_eq done (110 :: l)) rfl
  | case5 a b rest ch ch2 hb ha ih =>
    simp only [List.mem_cons, not_or] at hrest
    obtain ⟨-, -, ha0, hb0, hrest⟩ := hrest
    exact escapes_hex ⟨Ne.symm ha0, Ne.symm hb0⟩ hrest (ih hrest) ha hb
  | case6 a b rest hbad =>
    simp only [List.mem_cons, not_or] at hrest
    obtain ⟨-, -, ha0, hb0, -⟩ := hrest
    exact escapes_bad ⟨Ne.symm ha0, Ne.symm hb0⟩ hbad
  | case7 tail he hr hn hx => exact escapes_unknown he hr hn hx
  | case8 c rest he hr hn hx hc ih =>
    obtain ⟨hzero, hrest⟩ := not_or.mp (List.mem_cons.not.mp hrest)
    exact escapes_plain (Ne.symm hzero) hc (ih hrest) (escapesApart.eq_7 c rest he hr hn hx hc)
      (escapeBuffer.eq_7 c rest he hr hn hx hc)

/-! ## Strings -/

/-- The characters of a string that stand for themselves. -/
def plainCount : List u8 → ℕ
  | [] => 0
  | 92 :: 120 :: _ :: _ :: rest => plainCount rest
  | 92 :: _ :: rest => plainCount rest
  | _ :: rest => plainCount rest + 1

/-- And its escapes of four characters. -/
def hexCount : List u8 → ℕ
  | [] => 0
  | 92 :: 120 :: _ :: _ :: rest => hexCount rest + 1
  | 92 :: _ :: rest => hexCount rest
  | _ :: rest => hexCount rest

theorem plainCount_short {d : u8} (hd : d ≠ 120) (rest : List u8) :
    plainCount (92 :: d :: rest) = plainCount rest :=
  plainCount.eq_3 d rest fun _ _ _ h _ => hd h

theorem hexCount_short {d : u8} (hd : d ≠ 120) (rest : List u8) :
    hexCount (92 :: d :: rest) = hexCount rest :=
  hexCount.eq_3 d rest fun _ _ _ h _ => hd h

/-- **What a string is made of**: characters, and escapes of two and of
four. -/
theorem escapeBuffer_counts (h : escapeBuffer rest = some out) :
    ∃ short, rest.length = plainCount rest + 2 * short + 4 * hexCount rest ∧
      out.length = plainCount rest + short + hexCount rest := by
  induction rest using escapeBuffer.induct generalizing out with
  | case1 =>
    cases h
    exact ⟨0, rfl, rfl⟩
  | case2 rest ih | case3 rest ih | case4 rest ih =>
    obtain ⟨out, hout, rfl⟩ := Option.map_eq_some_iff.mp h
    obtain ⟨short, hrest, hlength⟩ := ih hout
    rw [plainCount_short (by decide), hexCount_short (by decide)]
    refine ⟨short + 1, ?_, ?_⟩
    all_goals simp only [List.length_cons]; omega
  | case5 a b rest ch ch2 hb ha ih =>
    rw [escapeBuffer.eq_5, ha, hb] at h
    obtain ⟨out, hout, rfl⟩ := Option.map_eq_some_iff.mp h
    obtain ⟨short, hrest, hlength⟩ := ih hout
    refine ⟨short, ?_, ?_⟩
    all_goals simp only [List.length_cons, plainCount, hexCount]; omega
  | case6 a b rest hbad =>
    rw [escapeBuffer.eq_5] at h
    split at h
    · rename_i ha hb
      exact (hbad _ _ ha hb).elim
    · cases h
  | case7 tail he hr hn hx =>
    rw [escapeBuffer.eq_6 tail he hr hn hx] at h
    cases h
  | case8 c rest he hr hn hx hc ih =>
    rw [escapeBuffer.eq_7 c rest he hr hn hx hc] at h
    obtain ⟨out, hout, rfl⟩ := Option.map_eq_some_iff.mp h
    obtain ⟨short, hrest, hlength⟩ := ih hout
    have hplain : plainCount (c :: rest) = plainCount rest + 1 :=
      plainCount.eq_4 c rest (fun a b t h _ => hc h) (fun a t h _ => hc h)
    have hhex : hexCount (c :: rest) = hexCount rest :=
      hexCount.eq_4 c rest (fun a b t h _ => hc h) (fun a t h _ => hc h)
    refine ⟨short, ?_, ?_⟩
    all_goals simp only [List.length_cons, hplain, hhex]; omega

/-- `escape_buffer` on a copy of its argument. -/
theorem escapeLoop_copy (harg : 0 ∉ arg) :
    if escapesApart arg then
      EscapedTo [] (escapeLoop (arg ++ [0]).length (arg ++ [0]) 0) (escapeBuffer arg)
    else escapeLoop (arg ++ [0]).length (arg ++ [0]) 0 = none :=
  escapesText harg [] [] _ (by rw [List.length_append]; exact Nat.lt_succ_self _)

/-- A loop that fills a list from its start. -/
theorem mapM_range {f : ℕ → Option u8} (h : ∀ i < l.length, f i = l[i]?) :
    (List.range l.length).mapM f = some l := by
  induction l using List.reverseRecOn with
  | nil => rfl
  -- the loop without its last turn, and that turn
  | append_singleton l a ih =>
    have hfront : ∀ i < l.length, f i = l[i]? := fun i hi => by
      rw [h i (by rw [List.length_append]; omega), List.getElem?_append_left hi]
    have hlast : f l.length = some a := by
      rw [h _ (by rw [List.length_append]; exact Nat.lt_succ_self _), List.getElem?_concat_length]
    rw [List.length_append, List.length_singleton, List.range_succ, List.mapM_append, ih hfront]
    simp [hlast]

/-- And one that reads a buffer. -/
theorem mapM_getElem? (hn : n ≤ l.length) :
    (List.range n).mapM (fun i => l[i]?) = some (l.take n) := by
  have h := mapM_range (l := l.take n) (f := fun i => l[i]?) fun i hi =>
    (List.getElem?_take_of_lt (by rw [List.length_take] at hi; omega)).symm
  rwa [List.length_take, Nat.min_eq_left hn] at h

theorem startsHex_copy (arg : List u8) :
    startsHex (arg ++ [0]) = some (decide (arg.take 2 = [48, 120])) := by
  unfold startsHex
  rcases arg with _ | ⟨a, _ | ⟨b, arg⟩⟩
  · rfl
  · show (if a = 48 then some (decide ((0 : u8) = 120)) else some false) = some (decide ([a] = _))
    split_ifs <;> simp
  · show (if a = 48 then some (decide (b = 120)) else some false) = some (decide ([a, b] = _))
    split_ifs with ha <;> simp [ha]

theorem writeBuffers_eq :
    writeBuffers getMath arg mode =
      (decodeStr getMath (arg ++ [0]) (writeMode arg mode)).bind fun (len, str) =>
        indexCopies (arg ++ [0]) len str := by
  simp only [writeBuffers, writeMode, startsHex_copy, Option.bind_some, decide_eq_true_eq]

/-- The copies hold what is looked at, and the bytes are the first of
`str`. -/
theorem indexCopies_eq (hstr : len ≤ l.length) (harg : len ≤ arg.length) :
    indexCopies (arg ++ [0]) len l = some (l.take len) := by
  unfold indexCopies
  split_ifs with h
  · rw [h, List.take_zero]
  · have hinside : len < (arg ++ [0]).length := by
      rw [List.length_append]
      exact Nat.lt_succ_of_le harg
    rw [store, if_pos hinside, Option.bind_some, mapM_getElem? hstr]

theorem le_of_indexCopies (hlen : len ≠ 0) (h : (indexCopies (arg ++ [0]) len l).isSome) :
    len ≤ arg.length := by
  by_contra hgt
  have houtside : ¬len < (arg ++ [0]).length := by
    rw [List.length_append, List.length_singleton]
    omega
  rw [indexCopies, if_neg hlen, store, if_neg houtside] at h
  cases h

/-- Nothing comes of a string that is copied over itself. -/
theorem decodeStr_stuck (harg : 0 ∉ arg) (hover : ¬escapesApart arg) :
    decodeStr getMath (arg ++ [0]) .string = none ∧
      decodeStr getMath (arg ++ [0]) .wstring = none := by
  have h := escapeLoop_copy harg
  rw [if_neg hover] at h
  exact ⟨h, by rw [decodeStr, h, Option.bind_none]⟩

/-- A string stays inside its copies. -/
theorem string_inside (harg : 0 ∉ arg) (hapart : escapesApart arg) :
    ((decodeStr getMath (arg ++ [0]) .string).bind fun (len, str) =>
      indexCopies (arg ++ [0]) len str) = some ((escapeBuffer arg).getD []) := by
  have h := escapeLoop_copy harg
  rw [if_pos hapart] at h
  unfold decodeStr
  cases hout : escapeBuffer arg with
  | none =>
    rw [hout] at h
    obtain ⟨buf, hloop⟩ := h
    rw [hloop]
    rfl
  | some out =>
    rw [hout] at h
    obtain ⟨junk, hloop⟩ := h
    obtain ⟨short, hrest, hlength⟩ := escapeBuffer_counts hout
    rw [List.length_nil, Nat.zero_add, List.nil_append] at hloop
    rw [hloop, Option.bind_some]
    refine (indexCopies_eq ?_ ?_).trans (congrArg some List.take_left)
    · rw [List.length_append]
      exact Nat.le_add_right _ _
    · omega

/-- As long as nothing is copied over itself. -/
theorem string_inside_iff (harg : 0 ∉ arg) :
    ((decodeStr getMath (arg ++ [0]) .string).bind fun (len, str) =>
      indexCopies (arg ++ [0]) len str).isSome ↔ escapesApart arg := by
  by_cases hapart : escapesApart arg
  · rw [string_inside harg hapart]
    exact iff_of_true rfl hapart
  · rw [(decodeStr_stuck harg hapart).1]
    exact iff_of_false (by simp) hapart

theorem getElem?_wide (out : List u8) (i : ℕ) :
    (out.flatMap fun c => [c, 0])[2 * i]? = out[i]? ∧
      (i < out.length → (out.flatMap fun c => [c, 0])[2 * i + 1]? = some 0) := by
  induction out generalizing i with
  | nil => exact ⟨rfl, fun h => absurd h (Nat.not_lt_zero _)⟩
  | cons c out ih =>
    cases i with
    | zero => exact ⟨rfl, fun _ => rfl⟩
    | succ i => exact ⟨(ih i).1, fun h => (ih i).2 (Nat.lt_of_succ_lt_succ h)⟩

theorem length_wide (out : List u8) : (out.flatMap fun c => [c, 0]).length = 2 * out.length := by
  induction out with
  | nil => rfl
  | cons c out ih =>
    simp only [List.flatMap_cons, List.length_append, List.length_cons, List.length_nil, ih]
    omega

theorem widen_eq (out junk : List u8) :
    widen out.length (out ++ junk) = some (out.flatMap fun c => [c, 0]) := by
  unfold widen
  rw [← length_wide]
  refine mapM_range fun i hi => ?_
  rw [length_wide] at hi
  -- a byte of the string, or the zero behind one
  obtain ⟨k, rfl | rfl⟩ : ∃ k, i = 2 * k ∨ i = 2 * k + 1 := ⟨i / 2, by omega⟩
  · rw [(getElem?_wide out k).1, if_neg (by omega), Nat.mul_div_cancel_left k (by decide),
      List.getElem?_append_left (by omega)]
  · rw [(getElem?_wide out k).2 (by omega), if_pos (by omega)]

/-- What a wide string does in its copies. -/
theorem wide_eq (harg : 0 ∉ arg) (hapart : escapesApart arg) :
    ((decodeStr getMath (arg ++ [0]) .wstring).bind fun (len, str) =>
      indexCopies (arg ++ [0]) len str) =
      indexCopies (arg ++ [0]) (2 * ((escapeBuffer arg).getD []).length)
        (((escapeBuffer arg).getD []).flatMap fun c => [c, 0]) := by
  have h := escapeLoop_copy harg
  rw [if_pos hapart] at h
  unfold decodeStr
  cases hout : escapeBuffer arg with
  | none =>
    rw [hout] at h
    obtain ⟨buf, hloop⟩ := h
    rw [hloop]
    rfl
  | some out =>
    rw [hout] at h
    obtain ⟨junk, hloop⟩ := h
    rw [List.length_nil, Nat.zero_add, List.nil_append] at hloop
    rw [hloop, Option.bind_some]
    show ((widen out.length (out ++ 0 :: junk)).map _).bind _ = _
    rw [widen_eq]
    rfl

/-- The copies of a wide string are left unless its escapes make up for the
characters doubled, and nothing is copied over itself. -/
theorem wide_inside_iff (harg : 0 ∉ arg) :
    ((decodeStr getMath (arg ++ [0]) .wstring).bind fun (len, str) =>
      indexCopies (arg ++ [0]) len str).isSome ↔
      escapesApart arg ∧ (escapeBuffer arg = none ∨ plainCount arg ≤ 2 * hexCount arg) := by
  by_cases hapart : escapesApart arg
  swap
  · rw [(decodeStr_stuck harg hapart).2]
    exact iff_of_false (by simp) fun h => hapart h.1
  rw [wide_eq harg hapart, and_iff_right hapart]
  cases hout : escapeBuffer arg with
  | none => exact ⟨fun _ => .inl rfl, fun _ => rfl⟩
  | some out =>
    obtain ⟨short, hrest, hlength⟩ := escapeBuffer_counts hout
    rw [Option.getD_some]
    constructor
    · intro h
      right
      -- nothing came out, and nothing was looked at; or `arg[len]` was inside
      by_cases hlen : 2 * out.length = 0
      · omega
      · have := le_of_indexCopies hlen h
        omega
    · rintro (h | h)
      · cases h
      · rw [indexCopies_eq (length_wide out).ge (by omega)]
        rfl

end Radare
