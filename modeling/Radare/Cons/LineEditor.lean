import Mathlib.Data.List.DropRight
import Radare.Common.Run
import Radare.Common.Zipper
import Radare.Cons.Dietline
/-!
# The line editor as a list with a cursor

What the keys mean for the line (`Line.press`), and where the buffer of
`dl_readline` still has that line after them. It loses it where its own
length goes wrong: by a backspace or a delete in the middle, by a character
that the buffer has no room for, by a word that is deleted behind a very
short one or in front of a longer rest, by a paste that is not at the end, by a
completion in front of the line, and at the end of a history that is full
(`line_editor_iff`).
-/

namespace Radare

open Common

variable {env : DlEnv} {mem mem' text rest src : List u8} {c : u8} {i n : ℕ}

/-! ## What the keys mean -/

/-- The line that is edited. -/
structure Line where
  text : Zipper u8
  clipboard : Option (List u8)
  histidx : ℕ
  /-- The words that were found for the last completion. -/
  found : ℕ
  ret : Option (Option (List u8))

/-- Up to the last word before the one that ends a text. -/
def wordsBefore (text : List u8) : List u8 :=
  ((text.rdropWhile fun c => c = 32).rdropWhile fun c => c ≠ 32).rdropWhile fun c => c = 32

/-- Without its last word: a blank stays behind the one before. -/
def withoutWord (text : List u8) : List u8 :=
  if wordsBefore text = [] then [] else wordsBefore text ++ [32]

/-- The word to which a line is completed: the only one that begins with
what is before the cursor, if it begins with the line too. -/
def Line.completed (env : DlEnv) (l : Line) : Option CText :=
  if (env.words.countP fun w => l.text.before <+: w.val) = 1 then
    env.words.find? fun w => l.text.text <+: w.val
  else none

/-- What was cut is put in at the cursor, if there is room for it. -/
def Line.paste (l : Line) : Line :=
  match l.clipboard with
  | none => l
  | some clip =>
    if l.text.text.length + clip.length < dlBufsize then
      { l with text := ⟨l.text.before ++ clip, l.text.behind⟩ }
    else l

/-- The entry of the history before the place in it. -/
def Line.up (env : DlEnv) (l : Line) : Line :=
  if 0 < l.histidx then
    match env.history[l.histidx - 1]? with
    | none => l
    | some line => { l with text := .atEnd line.val, histidx := l.histidx - 1 }
  else l

/-- The entry behind it, or an empty line. -/
def Line.down (env : DlEnv) (l : Line) : Line :=
  match env.history[l.histidx]? with
  | none => { l with text := .atEnd [] }
  | some line => { l with text := .atEnd line.val, histidx := l.histidx + 1 }

/-- Nothing is completed in front of a line. -/
def Line.complete (env : DlEnv) (l : Line) : Line :=
  if env.callback ∨ l.text.before = [] then l
  else
    let l' := { l with found := env.words.countP fun w => l.text.before <+: w.val }
    match l.completed env with
    | none => l'
    | some w => { l' with text := .atEnd w.val }

/-- What a case means. -/
def Line.press (env : DlEnv) (l : Line) : DlCase → Line
  | .eof => { l with ret := some none }
  | .ignore => l
  | .home => { l with text := .atStart l.text.text }
  | .end_ => { l with text := .atEnd l.text.text }
  | .cancel => { l with text := .atEnd [], ret := some (some []) }
  | .eofIfEmpty => if l.text.text = [] then { l with ret := some none } else l
  | .give => { l with ret := some (some l.text.text) }
  | .left => { l with text := l.text.left }
  | .right => { l with text := l.text.right }
  | .cut => { l with clipboard := some l.text.text, text := .atEnd [] }
  | .rubout => { l with text := ⟨withoutWord l.text.before, l.text.behind⟩ }
  | .paste => l.paste
  | .up => l.up env
  | .down => l.down env
  | .supr => { l with text := l.text.delete }
  | .backspace => { l with text := l.text.backspace }
  | .tab => l.complete env
  | .enter => { l with ret := some (some (dlEnd l.text.text)) }
  | .put c => { l with text := l.text.put c }

/-- One key. -/
def Line.turn (env : DlEnv) (l : Line) (key : DlKey) : Line :=
  if l.ret.isSome then l else l.press env key.case

/-- The line comes through a case. -/
def Line.Keeps (env : DlEnv) (l : Line) : DlCase → Prop
  | .put _ => l.text.text.length < if l.text.behind = [] then 1000 else dlBufsize - 1
  | .backspace => l.text.before = [] ∨ l.text.behind = []
  | .supr => l.text.behind = []
  | .rubout =>
    (wordsBefore l.text.before).length ≠ 1 ∧ (wordsBefore l.text.before).length ≠ 2 ∧
      (l.text.before = [] ∨
        (withoutWord l.text.before).length + l.text.behind.length < l.text.before.length)
  | .paste =>
    ∀ clip, l.clipboard = some clip → l.text.text.length + clip.length < dlBufsize →
      l.text.behind = []
  | .up =>
    0 < l.histidx → ∀ line, env.history[l.histidx - 1]? = some line → line.val.length < dlBufsize
  | .down =>
    match env.history[l.histidx]? with
    | none => l.histidx < env.histsize ∨ l.text.text = []
    | some line => line.val.length < dlBufsize
  | .tab =>
    env.callback ∨
      if l.text.before = [] then
        l.text.text ≠ [] → l.found = 1 → ∀ w ∈ env.words, ¬l.text.text <+: w.val
      else ∀ w, l.completed env = some w → w.val.length < dlBufsize
  | _ => True

/-- The line comes through a key. -/
def Line.KeepsKey (env : DlEnv) (l : Line) (key : DlKey) : Prop :=
  l.ret = none → l.Keeps env key.case

/-! ## The editor beside the line -/

/-- The editor, and the line that the keys have made. -/
structure Edited where
  dl : Dl
  line : Line

/-- The editor has the line: the index and the length are those of it, which
is what stands in the buffer. -/
structure Edited.Shown (env : DlEnv) (p : Edited) : Prop where
  idx_le : p.dl.idx ≤ p.dl.len
  len_eq : p.dl.len = (cstr p.dl.buffer).length
  len_lt : p.dl.len < dlBufsize
  text : cstr p.dl.buffer = p.line.text.text
  cursor : p.dl.idx = p.line.text.before.length
  ret : p.dl.ret = p.line.ret
  clipboard : p.dl.clipboard = p.line.clipboard
  clipboard_text : ∀ clip, p.line.clipboard = some clip → 0 ∉ clip
  histidx : p.dl.histidx = p.line.histidx
  histidx_le : p.line.histidx ≤ env.history.length
  found : p.dl.opt = p.line.found
  memory : p.dl.buffer.length = dlBufsize
  /-- The last byte is never written to. -/
  last : p.dl.buffer.getLast? = some 0

/-- A key, for both. -/
def editedTurn (env : DlEnv) (p : Edited) (key : DlKey) : Option Edited :=
  (dlTurn env p.dl key).map fun dl => ⟨dl, p.line.turn env key⟩

variable {p : Edited} {dl : Dl}

theorem zero_notMem_cstr : 0 ∉ cstr mem := fun h => by
  have hne := List.mem_takeWhile_imp h
  simp at hne

/-! ## The buffer -/

/-- A buffer with a text in its front. -/
structure Holds (mem text : List u8) : Prop where
  text_notMem : 0 ∉ text
  split : ∃ rest, mem = text ++ 0 :: rest
  memory : mem.length = dlBufsize
  last : mem.getLast? = some 0

theorem Holds.cstr (h : Holds mem text) : cstr mem = text := by
  obtain ⟨rest, rfl⟩ := h.split
  exact cstr_front h.text_notMem

theorem Holds.length_lt (h : Holds mem text) : text.length < dlBufsize := by
  obtain ⟨rest, hsplit⟩ := h.split
  have hmem := h.memory
  rw [hsplit, List.length_append, List.length_cons] at hmem
  omega

/-- A text in a buffer that is longer. -/
theorem split_cstr (hlt : (cstr mem).length < mem.length) :
    ∃ rest, mem = cstr mem ++ 0 :: rest := by
  have hsplit : cstr mem ++ mem.dropWhile (· ≠ 0) = mem := List.takeWhile_append_dropWhile
  -- the text ends at a NUL, or it would fill the buffer
  cases hdrop : mem.dropWhile (· ≠ 0) with
  | nil =>
    rw [hdrop, List.append_nil] at hsplit
    exact absurd (congrArg List.length hsplit) hlt.ne
  | cons c rest =>
    have hc := List.head?_dropWhile_not (· ≠ (0 : u8)) mem
    rw [hdrop] at hc
    have hzero : c = 0 := by simpa using hc
    rw [hdrop, hzero] at hsplit
    exact ⟨rest, hsplit.symm⟩

theorem Edited.Shown.holds (h : p.Shown env) : Holds p.dl.buffer p.line.text.text where
  text_notMem := h.text ▸ zero_notMem_cstr
  split := by
    have hlt := h.len_lt
    rw [h.len_eq, ← h.memory] at hlt
    exact h.text ▸ split_cstr hlt
  memory := h.memory
  last := h.last

/-- Another text with a cursor in it. -/
theorem Edited.Shown.change (h : p.Shown env) {z : Zipper u8} (hmem : Holds mem z.text) :
    Edited.Shown env
      ⟨{ p.dl with buffer := mem, len := z.text.length, idx := z.before.length },
        { p.line with text := z }⟩ where
  idx_le := z.length_before_le
  len_eq := by rw [hmem.cstr]
  len_lt := hmem.length_lt
  text := hmem.cstr
  cursor := rfl
  ret := h.ret
  clipboard := h.clipboard
  clipboard_text := h.clipboard_text
  histidx := h.histidx
  histidx_le := h.histidx_le
  found := h.found
  memory := hmem.memory
  last := hmem.last

/-- A text is stored over another one. -/
theorem Holds.strcpy (h : Holds mem text) (hn : n ≤ text.length) (hsrc : 0 ∉ src)
    (hroom : n + src.length < dlBufsize) :
    ∃ mem', strcpyAt mem n src = some mem' ∧ Holds mem' (text.take n ++ src) := by
  obtain ⟨rest, hsplit⟩ := h.split
  have hlength := h.memory
  have hlast := h.last
  refine ⟨_, if_pos (by omega), ?_⟩
  have htake : mem.take n = text.take n := by
    rw [hsplit, List.take_append_of_le_length hn]
  rw [htake]
  constructor
  · rw [List.mem_append, not_or]
    exact ⟨fun hmem => h.text_notMem (List.mem_of_mem_take hmem), hsrc⟩
  · exact ⟨_, rfl⟩
  · have htakeLength : (text.take n).length = n := List.length_take_of_le hn
    rw [List.length_append, List.length_append, List.length_cons, List.length_drop, htakeLength]
    omega
  · rw [List.getLast?_append, List.getLast?_cons]
    by_cases hend : n + src.length + 1 < mem.length
    · rw [List.getLast?_drop, if_neg (by omega), hlast]
      rfl
    · rw [List.drop_eq_nil_of_le (by omega)]
      rfl

theorem store_eq (h : i < mem.length) : store mem i c = some (mem.set i c) := if_pos h

/-- A line of the history, as `strncpy` copies it. -/
theorem Holds.strncpy (h : Holds mem text) (hsrc : 0 ∉ src) (hlt : src.length < dlBufsize) :
    Holds (strncpy mem src (dlBufsize - 1)) src := by
  have hlength := h.memory
  have hdrop : mem.drop (dlBufsize - 1) = [0] := by
    obtain ⟨front, hfront⟩ := List.getLast?_eq_some_iff.mp h.last
    rw [hfront, List.length_append, List.length_singleton] at hlength
    rw [hfront]
    exact List.drop_left' (by omega)
  have hcopy : Radare.strncpy mem src (dlBufsize - 1) =
      src ++ 0 :: List.replicate (dlBufsize - 1 - src.length) 0 := by
    unfold Radare.strncpy
    rw [hdrop, List.take_of_length_le, List.append_assoc, ← List.replicate_succ',
      List.replicate_succ]
    rw [List.length_append, List.length_replicate]
    omega
  rw [hcopy]
  refine ⟨hsrc, ⟨_, rfl⟩, ?_, ?_⟩
  · rw [List.length_append, List.length_cons, List.length_replicate]
    omega
  · rw [← List.replicate_succ, List.replicate_succ', ← List.append_assoc]
    exact List.getLast?_concat

/-- A NUL in the text. -/
theorem Holds.nul (h : Holds mem text) (hn : n ≤ text.length) :
    Holds (mem.set n 0) (text.take n) := by
  obtain ⟨rest, hsplit⟩ := h.split
  have hlength := h.memory
  have hlt := h.length_lt
  constructor
  · exact fun hmem => h.text_notMem (List.mem_of_mem_take hmem)
  · refine ⟨mem.drop (n + 1), ?_⟩
    rw [List.set_eq_take_append_cons_drop, if_pos (by omega), hsplit,
      List.take_append_of_le_length hn]
  · rw [List.length_set, hlength]
  · rw [List.getLast?_eq_getElem?, List.length_set, List.getElem?_set]
    have hlast := h.last
    rw [List.getLast?_eq_getElem?] at hlast
    split_ifs
    · rfl
    · omega
    · exact hlast

/-- What is behind the NUL ends as before where the NUL is one place on. -/
theorem getLast?_zero_cons {text' : List u8} (h : (text ++ 0 :: c :: rest).getLast? = some 0) :
    (text' ++ 0 :: rest).getLast? = some 0 := by
  rw [List.getLast?_append_cons, List.getLast?_cons_cons] at h
  rw [List.getLast?_append_cons]
  cases rest with
  | nil => rfl
  | cons d rest => rwa [List.getLast?_cons_cons] at h ⊢

/-- A character behind the text. -/
theorem Holds.append (h : Holds mem text) (hroom : text.length + 1 < dlBufsize) (hc : c ≠ 0) :
    Holds ((mem.set text.length c).set (text.length + 1) 0) (text ++ [c]) := by
  obtain ⟨rest, hsplit⟩ := h.split
  have hlength := h.memory
  have hlast := h.last
  rw [hsplit, List.length_append, List.length_cons] at hlength
  obtain ⟨x, rest, rfl⟩ := List.exists_cons_of_length_pos (by omega : 0 < rest.length)
  have hset : (mem.set text.length c).set (text.length + 1) 0 = (text ++ [c]) ++ 0 :: rest := by
    rw [hsplit, List.set_append_right _ _ (Nat.le_refl _), Nat.sub_self, List.set_cons_zero,
      List.set_append_right _ _ (Nat.le_succ _), Nat.succ_eq_add_one, Nat.add_sub_cancel_left,
      List.set_cons_succ, List.set_cons_zero, List.append_assoc]
    rfl
  rw [hset]
  rw [List.length_cons] at hlength
  refine ⟨?_, ⟨rest, rfl⟩, ?_, ?_⟩
  · rw [List.mem_append, List.mem_singleton, not_or]
    exact ⟨h.text_notMem, fun hzero => hc hzero.symm⟩
  · rw [List.length_append, List.length_append, List.length_singleton, List.length_cons]
    omega
  · exact getLast?_zero_cons (hsplit ▸ hlast)

/-- Some bytes are moved up over the one behind them; the first one stays. -/
theorem shiftLoop_eq (pre mid rest : List u8) (c : u8) :
    ∃ y, shiftLoop pre.length mid.length (pre ++ mid ++ c :: rest) =
      some (pre ++ y :: (mid ++ rest)) := by
  induction mid using List.reverseRecOn generalizing c rest with
  | nil => exact ⟨c, by rw [List.append_nil]; rfl⟩
  -- the last byte goes first, as the loop comes down
  | append_singleton mid m ih =>
    obtain ⟨y, hy⟩ := ih (m :: rest) m
    refine ⟨y, ?_⟩
    have hassoc : pre ++ (mid ++ [m]) ++ c :: rest = (pre ++ mid) ++ m :: c :: rest := by
      simp
    have hat : pre.length + mid.length = (pre ++ mid).length := List.length_append.symm
    have hget : (pre ++ (mid ++ [m]) ++ c :: rest).getD (pre.length + mid.length) 0 = m := by
      rw [hassoc, hat, List.getD_eq_getElem?_getD, List.getElem?_append_right (Nat.le_refl _),
        Nat.sub_self]
      rfl
    have hset : (pre ++ (mid ++ [m]) ++ c :: rest).set (pre.length + mid.length + 1) m =
        pre ++ mid ++ m :: m :: rest := by
      rw [hassoc, hat, List.set_append_right _ _ (Nat.le_succ _), Nat.succ_eq_add_one,
        Nat.add_sub_cancel_left, List.set_cons_succ, List.set_cons_zero]
    rw [List.length_append, List.length_singleton, shiftLoop, hget, store, if_pos (by simp; omega),
      hset, Option.bind_some, hy, List.append_assoc]
    rfl

/-- A character in the middle of the text. -/
theorem Holds.insert {before behind : List u8} (h : Holds mem (before ++ behind)) (hc : c ≠ 0)
    (hroom : (before ++ behind).length + 1 < dlBufsize) :
    ∃ shifted mem', shiftLoop before.length (behind.length + 1) mem = some shifted ∧
      store shifted before.length c = some mem' ∧ Holds mem' ((before ++ [c]) ++ behind) := by
  obtain ⟨rest, hsplit⟩ := h.split
  have hlength := h.memory
  have hlast := h.last
  rw [hsplit, List.length_append, List.length_cons] at hlength
  obtain ⟨x, rest, rfl⟩ := List.exists_cons_of_length_pos (by omega : 0 < rest.length)
  -- the terminator is moved up with what is behind the cursor
  obtain ⟨y, hy⟩ := shiftLoop_eq before (behind ++ [0]) rest x
  have hsame : before ++ (behind ++ [0]) ++ x :: rest = mem := by
    rw [hsplit]
    simp
  rw [hsame, List.length_append, List.length_singleton] at hy
  refine ⟨_, _, hy, if_pos (by simp), ?_⟩
  rw [List.set_append_right _ _ (Nat.le_refl _), Nat.sub_self, List.set_cons_zero]
  rw [List.length_append, List.length_cons] at hlength
  refine ⟨?_, ⟨rest, by simp⟩, ?_, ?_⟩
  · have hzero := h.text_notMem
    rw [List.mem_append, not_or] at hzero
    simp only [List.mem_append, List.mem_singleton, not_or]
    exact ⟨⟨hzero.1, fun h => hc h.symm⟩, hzero.2⟩
  · simp only [List.length_append, List.length_cons, List.length_nil]
    omega
  · have hassoc : before ++ c :: (behind ++ [0] ++ rest) = before ++ c :: behind ++ 0 :: rest := by
      simp
    rw [hassoc]
    exact getLast?_zero_cons (hsplit ▸ hlast)

/-- A buffer that is full has no place for it. -/
theorem shiftLoop_eq_none (hroom : mem.length ≤ i + n + 1) : shiftLoop i (n + 1) mem = none := by
  rw [shiftLoop, store, if_neg (by omega)]
  rfl

/-! ## Words -/

/-- Back from the end of some text in front of the buffer. -/
theorem backWhile_eq (q : u8 → Bool) (hpre : src <+: mem) :
    backWhile q mem (src.length - 1) = (src.rdropWhile q).length - 1 := by
  induction src using List.reverseRecOn with
  | nil => rfl
  | append_singleton src a ih =>
    rw [List.length_append, List.length_singleton, Nat.add_sub_cancel]
    rcases Nat.eq_zero_or_pos src.length with hnil | hpos
    · rw [List.length_eq_zero_iff.mp hnil, List.nil_append, List.rdropWhile_singleton]
      split_ifs <;> rfl
    · obtain ⟨i, hi⟩ := Nat.exists_eq_succ_of_ne_zero hpos.ne'
      have hget : mem.getD (i + 1) 0 = a := by
        obtain ⟨rest, rfl⟩ := hpre
        rw [← Nat.succ_eq_add_one, ← hi, List.append_assoc, List.getD_eq_getElem?_getD,
          List.getElem?_append_right (Nat.le_refl _), Nat.sub_self]
        rfl
      have hback := ih ((List.prefix_append src [a]).trans hpre)
      rw [hi, Nat.succ_sub_one] at hback
      rw [hi, Nat.succ_eq_add_one, backWhile, hget, List.rdropWhile_concat]
      -- the scan goes over the character, or stops at it
      split_ifs
      · exact hback
      · rw [List.length_append, List.length_singleton, hi]
        rfl

theorem wordsBefore_isPrefix (text : List u8) : wordsBefore text <+: text :=
  ( List.rdropWhile_prefix _ _).trans
    (( List.rdropWhile_prefix _ _).trans ( List.rdropWhile_prefix _ _))

/-- A blank is behind the words before the last one. -/
theorem blank_behind (hne : wordsBefore text ≠ []) : wordsBefore text ++ [32] <+: text := by
  generalize hlast : (text.rdropWhile fun c => c = 32).rdropWhile (fun c => c ≠ 32) = front
  have hwords : wordsBefore text = front.rdropWhile fun c => c = 32 := by
    rw [← hlast]
    rfl
  have hfront : front <+: text := hlast ▸
    ( List.rdropWhile_prefix _ _).trans ( List.rdropWhile_prefix _ _)
  have hsplit := List.rdropWhile_append_rtakeWhile (p := fun c => decide (c = (32 : u8)))
    (l := front)
  rw [hwords] at hne ⊢
  cases htail : front.rtakeWhile fun c => decide (c = (32 : u8)) with
  | nil =>
    -- the last character would be a blank, and would not be
    rw [htail, List.append_nil] at hsplit
    have hnot := List.rdropWhile_last_not (fun c => decide (c = (32 : u8))) front hne
    have hfrontNe : (text.rdropWhile fun c => c = 32).rdropWhile (fun c => c ≠ 32) ≠ [] := by
      rw [hlast, ← hsplit]
      exact hne
    have hblank := List.rdropWhile_last_not (fun c => decide (c ≠ (32 : u8))) _ hfrontNe
    simp only [hlast, hsplit, decide_eq_true_eq, not_not] at hnot hblank
    exact absurd hblank hnot
  | cons c tail =>
    have hc : c = 32 := by
      have himp := List.mem_rtakeWhile_imp (htail ▸ List.mem_cons_self)
      simpa using himp
    refine List.IsPrefix.trans ?_ hfront
    rw [htail, hc] at hsplit
    exact ⟨tail, by rw [List.append_assoc, List.singleton_append, hsplit]⟩

/-- Where `^W` copies to, with words of `n` characters before the last. -/
def cutPlace (mem : List u8) (n : ℕ) : ℕ :=
  if 1 < n - 1 ∧ mem.getD (n - 1 + 1) 0 = 32 then n - 1 + 2 else n - 1

/-- The place is that of the words before and the blank behind them, but
for the shortest words. -/
theorem cutPlace_spec {mem before : List u8} (hbefore : before <+: mem)
    (hmany : (wordsBefore before).length ≠ 1 ∧ (wordsBefore before).length ≠ 2) :
    cutPlace mem (wordsBefore before).length ≤ before.length ∧
      before.take (cutPlace mem (wordsBefore before).length) = withoutWord before := by
  unfold cutPlace withoutWord
  by_cases hnil : wordsBefore before = []
  · rw [if_pos hnil, hnil, if_neg (by simp)]
    exact ⟨Nat.zero_le _, List.take_zero⟩
  · rw [if_neg hnil]
    have hwords := List.length_pos_iff.mpr hnil
    have hblank := blank_behind hnil
    have hget : mem.getD ((wordsBefore before).length - 1 + 1) 0 = 32 := by
      obtain ⟨rest, hrest⟩ := hblank.trans hbefore
      rw [← hrest, Nat.sub_add_cancel hwords, List.append_assoc, List.getD_eq_getElem?_getD,
        List.getElem?_append_right (Nat.le_refl _), Nat.sub_self]
      rfl
    have hlength := hblank.length_le
    have htake := List.prefix_iff_eq_take.mp hblank
    rw [List.length_append, List.length_singleton] at hlength htake
    have hplace : (wordsBefore before).length - 1 + 2 = (wordsBefore before).length + 1 := by omega
    rw [if_pos ⟨by omega, hget⟩, hplace]
    exact ⟨hlength, htake.symm⟩

/-! ## The cases -/

namespace Edited.Shown

/-- The cursor in another place. -/
theorem move (h : p.Shown env) {z : Zipper u8} (hz : z.text = p.line.text.text) :
    Edited.Shown env ⟨{ p.dl with idx := z.before.length }, { p.line with text := z }⟩ := by
  have hchange := h.change (z := z) (hz ▸ h.holds)
  have hlen : z.text.length = p.dl.len := by
    rw [hz, h.len_eq, h.text]
  rwa [hlen] at hchange

theorem returns (h : p.Shown env) (ret : Option (Option (List u8))) :
    Edited.Shown env ⟨{ p.dl with ret := ret }, { p.line with ret := ret }⟩ :=
  { h with ret := rfl }

theorem length_eq (h : p.Shown env) : p.dl.len = p.line.text.text.length := by
  rw [h.len_eq, h.text]

theorem idx_lt_iff (h : p.Shown env) : p.dl.idx < p.dl.len ↔ p.line.text.behind ≠ [] := by
  rw [h.cursor, h.length_eq]
  exact Zipper.length_before_lt_iff

/-- The store at the top of the loop changes nothing. -/
theorem store_nul (h : p.Shown env) : store p.dl.buffer p.dl.len 0 = some p.dl.buffer := by
  obtain ⟨rest, hsplit⟩ := h.holds.split
  have hlt := h.len_lt
  rw [← h.memory] at hlt
  rw [store, if_pos hlt, h.length_eq, hsplit, List.set_append_right _ _ (Nat.le_refl _),
    Nat.sub_self, List.set_cons_zero]

theorem cstr_drop (h : p.Shown env) :
    cstr (p.dl.buffer.drop p.dl.idx) = p.line.text.behind := by
  obtain ⟨rest, hsplit⟩ := h.holds.split
  have hzero := h.holds.text_notMem
  unfold Zipper.text at hsplit hzero
  rw [List.mem_append, not_or] at hzero
  rw [hsplit, h.cursor, List.append_assoc, List.drop_left, cstr_front hzero.2]

/-- A line of another length is not shown. -/
theorem length_ne {l : Line} {s : Dl} (hne : s.len ≠ l.text.text.length) :
    ¬Edited.Shown env ⟨s, l⟩ := fun h => hne h.length_eq

/-- The character put in is counted, by the line and before its cursor. -/
theorem length_put (h : p.Shown env) :
    (p.line.text.put c).text.length = p.dl.len + 1 ∧
      (p.line.text.put c).before.length = p.dl.idx + 1 := by
  constructor
  · rw [h.length_eq, Zipper.length_text, Zipper.length_text, Zipper.put, List.length_append]
    exact Nat.succ_add _ _
  · rw [h.cursor, Zipper.put, List.length_append]
    rfl

/-- At the end of the line there is room up to 1000. -/
theorem put_end_iff (h : p.Shown env) (hc : c ≠ 0) (hend : p.line.text.behind = []) :
    (∃ s, dlPut p.dl c = some s ∧
      Edited.Shown env ⟨s, { p.line with text := p.line.text.put c }⟩) ↔
      p.line.text.text.length < 1000 := by
  have hlen := h.length_eq
  have hmem := h.memory
  obtain ⟨hput, hbefore⟩ := h.length_put (c := c)
  have hlt : p.dl.len < p.dl.buffer.length := hmem.symm ▸ h.len_lt
  have hat : ¬p.dl.idx < p.dl.len := mt h.idx_lt_iff.mp (not_not.mpr hend)
  rw [dlPut, if_neg hat, store_eq hlt, Option.bind_eq_bind, Option.bind_some]
  by_cases hroom : p.line.text.text.length < 1000
  · refine iff_of_true ?_ hroom
    have hmore : p.dl.len + 1 < p.dl.buffer.length := by
      rw [hmem, hlen]
      unfold dlBufsize
      omega
    have hholds := h.holds.append (c := c) (by rw [← hlen, ← hmem]; exact hmore) hc
    have htext : p.line.text.text ++ [c] = (p.line.text.put c).text := by
      rw [Zipper.text, Zipper.text, Zipper.put, hend, List.append_nil, List.append_nil]
    have hshown := h.change (htext ▸ hholds)
    rw [hput, hbefore, ← hlen] at hshown
    refine ⟨_, ?_, hshown⟩
    dsimp only
    rw [if_neg (by omega), store_eq (by rwa [List.length_set])]
    rfl
  · refine iff_of_false ?_ hroom
    dsimp only
    rw [if_pos (by omega), store_eq (by rwa [List.length_set]), Option.bind_some]
    rintro ⟨s, hs, hshown⟩
    obtain rfl := Option.some.inj hs
    refine length_ne ?_ hshown
    -- the character is dropped, and the length has not counted it
    show p.dl.len ≠ (p.line.text.put c).text.length
    omega

/-- In its middle there is as much as the buffer has. -/
theorem put_middle_iff (h : p.Shown env) (hc : c ≠ 0) (hend : p.line.text.behind ≠ []) :
    (∃ s, dlPut p.dl c = some s ∧
      Edited.Shown env ⟨s, { p.line with text := p.line.text.put c }⟩) ↔
      p.line.text.text.length < dlBufsize - 1 := by
  obtain ⟨hput, hbefore⟩ := h.length_put (c := c)
  have hcount : p.dl.len + 1 - p.dl.idx = p.line.text.behind.length + 1 := by
    rw [h.length_eq, h.cursor, Zipper.length_text]
    omega
  rw [dlPut, if_pos (h.idx_lt_iff.mpr hend)]
  dsimp only
  rw [hcount]
  by_cases hroom : p.line.text.text.length < dlBufsize - 1
  · refine iff_of_true ?_ hroom
    obtain ⟨shifted, mem', hshift, hstore, hholds⟩ := h.holds.insert hc (by
      rw [← Zipper.text]
      omega)
    rw [h.cursor, hshift, Option.bind_eq_bind, Option.bind_some, hstore, Option.bind_some]
    have hshown := h.change (z := p.line.text.put c) hholds
    rw [hput, hbefore, h.cursor] at hshown
    exact ⟨_, rfl, hshown⟩
  · refine iff_of_false ?_ hroom
    rw [shiftLoop_eq_none, Option.bind_eq_bind, Option.bind_none]
    · rintro ⟨s, hs, -⟩
      cases hs
    · -- the first byte that is moved would go behind the buffer
      rw [h.memory, h.cursor]
      rw [Zipper.length_text] at hroom
      omega

/-- **A character** is put in where there is room for it. -/
theorem put_iff (h : p.Shown env) (hc : c ≠ 0) :
    (∃ s, dlPut p.dl c = some s ∧
      Edited.Shown env ⟨s, { p.line with text := p.line.text.put c }⟩) ↔
      p.line.Keeps env (.put c) := by
  show _ ↔ p.line.text.text.length < if p.line.text.behind = [] then 1000 else dlBufsize - 1
  by_cases hend : p.line.text.behind = []
  · rw [if_pos hend]
    exact h.put_end_iff hc hend
  · rw [if_neg hend]
    exact h.put_middle_iff hc hend

/-- At the end of the line a backspace deletes. -/
theorem backspace_end (h : p.Shown env) (hend : p.line.text.behind = []) :
    ∃ s, dlBackspace p.dl = some s ∧
      Edited.Shown env ⟨s, { p.line with text := p.line.text.backspace }⟩ := by
  have hlen := h.length_eq
  have hmem := h.memory
  have hlt := h.len_lt
  have htext : p.line.text.text = p.line.text.before := by
    rw [Zipper.text, hend, List.append_nil]
  have hback : p.line.text.text.take (p.dl.len - 1) = p.line.text.backspace.text := by
    rw [hlen, ← List.dropLast_eq_take, htext, Zipper.text, Zipper.backspace, hend,
      List.append_nil]
  have hholds := h.holds.nul (n := p.dl.len - 1) (by omega)
  rw [hback] at hholds
  have hshown := h.change hholds
  have hbefore : p.line.text.backspace.before.length = p.dl.len - 1 := by
    rw [Zipper.backspace, List.length_dropLast, hlen, htext]
  have hlength : p.line.text.backspace.text.length = p.dl.len - 1 := by
    rw [← hback, List.length_take]
    omega
  rw [hbefore, hlength] at hshown
  refine ⟨_, ?_, hshown⟩
  unfold dlBackspace
  rw [if_neg (mt h.idx_lt_iff.mp (not_not.mpr hend))]
  dsimp only
  rw [store_eq (by omega)]
  rfl

/-- In its middle it leaves the length as it was. -/
theorem not_shown_backspace (h : p.Shown env) (hstart : p.line.text.before ≠ [])
    (hend : p.line.text.behind ≠ []) :
    ¬∃ s, dlBackspace p.dl = some s ∧
      Edited.Shown env ⟨s, { p.line with text := p.line.text.backspace }⟩ := by
  have hlen := h.length_eq
  have hcursor := h.cursor
  have hpos := List.length_pos_iff.mpr hstart
  unfold dlBackspace
  rw [if_pos (h.idx_lt_iff.mpr hend), if_pos (by omega)]
  rintro ⟨s, hs, hshown⟩
  obtain ⟨buffer, -, rfl⟩ := Option.map_eq_some_iff.mp hs
  refine length_ne ?_ hshown
  -- the text is one shorter, and `dl_buffer_len` is not
  show p.dl.len ≠ p.line.text.backspace.text.length
  have hback : p.line.text.backspace.text.length =
      p.line.text.before.length - 1 + p.line.text.behind.length := by
    rw [Zipper.length_text, Zipper.backspace, List.length_dropLast]
  rw [Zipper.length_text] at hlen
  omega

/-- **A backspace** is right at both ends of the line. -/
theorem backspace_iff (h : p.Shown env) :
    (∃ s, dlBackspace p.dl = some s ∧
      Edited.Shown env ⟨s, { p.line with text := p.line.text.backspace }⟩) ↔
      p.line.Keeps env .backspace := by
  show _ ↔ p.line.text.before = [] ∨ p.line.text.behind = []
  by_cases hend : p.line.text.behind = []
  · exact iff_of_true (h.backspace_end hend) (Or.inr hend)
  by_cases hstart : p.line.text.before = []
  · have hidle : dlBackspace p.dl = some p.dl := by
      unfold dlBackspace
      rw [if_pos (h.idx_lt_iff.mpr hend), if_neg (by rw [h.cursor, hstart]; exact Nat.lt_irrefl 0)]
    have hsame : p.line.text.backspace = p.line.text := by
      rw [Zipper.backspace, hstart]
      exact congrArg (Zipper.mk · _) hstart.symm
    rw [hidle, hsame]
    exact iff_of_true ⟨_, rfl, h⟩ (Or.inl hstart)
  · exact iff_of_false (h.not_shown_backspace hstart hend) (not_or.mpr ⟨hstart, hend⟩)

/-- **Supr** is right where it has nothing to delete. -/
theorem supr_iff (h : p.Shown env) :
    (∃ s, dlSupr p.dl = some s ∧
      Edited.Shown env ⟨s, { p.line with text := p.line.text.delete }⟩) ↔
      p.line.Keeps env .supr := by
  show _ ↔ p.line.text.behind = []
  unfold dlSupr
  by_cases hend : p.line.text.behind = []
  · rw [if_neg (mt h.idx_lt_iff.mp (not_not.mpr hend))]
    refine iff_of_true ⟨_, rfl, ?_⟩ hend
    have hsame : p.line.text.delete = p.line.text := by
      rw [Zipper.delete, hend]
      exact congrArg (Zipper.mk _) hend.symm
    rw [hsame]
    exact h
  · rw [if_pos (h.idx_lt_iff.mpr hend)]
    refine iff_of_false ?_ hend
    rintro ⟨s, hs, hshown⟩
    obtain ⟨buffer, -, rfl⟩ := Option.map_eq_some_iff.mp hs
    refine length_ne ?_ hshown
    -- nor is it here, whichever character has gone
    show p.dl.len ≠ p.line.text.delete.text.length
    have hpos := List.length_pos_iff.mpr hend
    have hdelete : p.line.text.delete.text.length =
        p.line.text.before.length + (p.line.text.behind.length - 1) := by
      rw [Zipper.length_text, Zipper.delete, List.length_tail]
    rw [h.length_eq, Zipper.length_text]
    omega

/-- Another line, with the cursor at its end. -/
theorem fill (h : p.Shown env) (hmem : Holds mem text) :
    Edited.Shown env ⟨p.dl.fill mem, { p.line with text := .atEnd text }⟩ := by
  have hz : (Zipper.atEnd text).text = text := Zipper.text_atEnd
  have hchange := h.change (z := .atEnd text) (hz.symm ▸ hmem)
  rw [hz] at hchange
  rw [Dl.fill, hmem.cstr]
  exact hchange

theorem empty (h : p.Shown env) :
    Edited.Shown env ⟨{ p.dl with buffer := p.dl.buffer.set 0 0, len := 0, idx := 0 },
      { p.line with text := .atEnd [] }⟩ :=
  h.change (z := .atEnd []) (h.holds.nul (Nat.zero_le _))

theorem before_front (h : p.Shown env) : p.line.text.before <+: p.dl.buffer := by
  obtain ⟨rest, hsplit⟩ := h.holds.split
  rw [hsplit, Zipper.text, List.append_assoc]
  exact List.prefix_append _ _

/-- The scan back over the word finds where the ones before end. -/
theorem rubout_eq (h : p.Shown env) (hstart : p.line.text.before ≠ []) :
    dlRubout p.dl = (strcpyWithin p.dl.buffer
      (cutPlace p.dl.buffer (wordsBefore p.line.text.before).length)
      p.line.text.before.length).map
        fun buffer => { p.dl with
          buffer := buffer
          len := (cstr buffer).length
          idx := cutPlace p.dl.buffer (wordsBefore p.line.text.before).length } := by
  have hbefore := h.before_front
  have hidx : 0 < p.dl.idx := h.cursor ▸ List.length_pos_iff.mpr hstart
  unfold dlRubout
  rw [if_pos hidx, h.cursor]
  dsimp only
  -- the three loops: blanks, the word, and the blanks before it
  rw [backWhile_eq _ hbefore, backWhile_eq _ (( List.rdropWhile_prefix _ _).trans hbefore),
    backWhile_eq _ (( List.rdropWhile_prefix _ _).trans
      (( List.rdropWhile_prefix _ _).trans hbefore))]
  rfl

/-- What is behind the cursor is copied to a place before it, if it ends there. -/
theorem strcpyWithin_behind (h : p.Shown env) (i : ℕ) :
    strcpyWithin p.dl.buffer i p.line.text.before.length =
      if i + p.line.text.behind.length < p.line.text.before.length then
        strcpyAt p.dl.buffer i p.line.text.behind
      else none := by
  obtain ⟨rest, hsplit⟩ := h.holds.split
  have hdrop := h.cstr_drop
  have hmem : 0 ∈ p.dl.buffer.drop p.line.text.before.length := by
    rw [hsplit, Zipper.text, List.append_assoc, List.drop_left]
    simp
  rw [h.cursor] at hdrop
  unfold strcpyWithin
  rw [hdrop]
  exact if_congr (and_iff_right hmem) rfl rfl

/-- The line is what is in front of the place then, and this. -/
theorem copy_behind (h : p.Shown env) (hi : i ≤ p.line.text.before.length) :
    ∃ mem', strcpyAt p.dl.buffer i p.line.text.behind = some mem' ∧
      Holds mem' (p.line.text.before.take i ++ p.line.text.behind) := by
  have hzero := h.holds.text_notMem
  rw [Zipper.text, List.mem_append, not_or] at hzero
  have hlt := h.holds.length_lt
  rw [Zipper.length_text] at hlt
  have hstrcpy := h.holds.strcpy (n := i) (hi.trans Zipper.length_before_le) hzero.2 (by omega)
  rwa [Zipper.text, List.take_append_of_le_length hi] at hstrcpy

/-- Behind words of one or two characters, as many as that are left. -/
theorem not_shown_short (h : p.Shown env) (hstart : p.line.text.before ≠ [])
    (hfew : (wordsBefore p.line.text.before).length = 1 ∨
      (wordsBefore p.line.text.before).length = 2) :
    ¬∃ s, dlRubout p.dl = some s ∧ Edited.Shown env
      ⟨s, { p.line with text := ⟨withoutWord p.line.text.before, p.line.text.behind⟩ }⟩ := by
  rintro ⟨s, hs, hshown⟩
  have hle := (wordsBefore_isPrefix p.line.text.before).length_le
  -- the place found is 0 or 1, and the blank behind it is not looked at
  have hplace : cutPlace p.dl.buffer (wordsBefore p.line.text.before).length =
      (wordsBefore p.line.text.before).length - 1 := if_neg (by omega)
  have hne : ¬wordsBefore p.line.text.before = [] := fun hnil => by
    rw [hnil] at hfew
    simp at hfew
  obtain ⟨mem', hmem', hholds⟩ := h.copy_behind
    (i := (wordsBefore p.line.text.before).length - 1) (by omega)
  rw [h.rubout_eq hstart, hplace, h.strcpyWithin_behind, hmem'] at hs
  split_ifs at hs
  swap
  · cases hs
  obtain rfl := Option.some.inj hs
  refine length_ne ?_ hshown
  show (cstr mem').length ≠ _
  rw [hholds.cstr, List.length_append, List.length_take, Zipper.length_text, withoutWord,
    if_neg hne, List.length_append]
  simp only [List.length_singleton]
  omega

/-- **`^W`** is wrong where the words before have but one or two characters, and
where what is behind the cursor is not shorter than the word. -/
theorem rubout_iff (h : p.Shown env) :
    (∃ s, dlRubout p.dl = some s ∧ Edited.Shown env
      ⟨s, { p.line with text := ⟨withoutWord p.line.text.before, p.line.text.behind⟩ }⟩) ↔
      p.line.Keeps env .rubout := by
  show _ ↔ (wordsBefore p.line.text.before).length ≠ 1 ∧
    (wordsBefore p.line.text.before).length ≠ 2 ∧ (p.line.text.before = [] ∨
      (withoutWord p.line.text.before).length + p.line.text.behind.length <
        p.line.text.before.length)
  by_cases hstart : p.line.text.before = []
  · have hwords : wordsBefore p.line.text.before = [] := by
      rw [hstart]
      rfl
    have hsame : (⟨withoutWord p.line.text.before, p.line.text.behind⟩ : Zipper u8) =
        p.line.text := by
      rw [withoutWord, if_pos hwords, ← hstart]
    have hidle : dlRubout p.dl = some p.dl :=
      if_neg (by rw [h.cursor, hstart]; exact Nat.lt_irrefl 0)
    rw [hidle, hwords, hsame]
    exact iff_of_true ⟨_, rfl, h⟩ ⟨Nat.zero_ne_one, by decide, Or.inl hstart⟩
  by_cases hfew : (wordsBefore p.line.text.before).length = 1 ∨
      (wordsBefore p.line.text.before).length = 2
  · exact iff_of_false (h.not_shown_short hstart hfew) fun hand => hfew.elim hand.1 hand.2.1
  rw [not_or] at hfew
  rw [and_iff_right hfew.1, and_iff_right hfew.2, or_iff_right hstart]
  obtain ⟨hi, htake⟩ := cutPlace_spec h.before_front hfew
  have hplace : (withoutWord p.line.text.before).length =
      cutPlace p.dl.buffer (wordsBefore p.line.text.before).length := by
    rw [← htake, List.length_take_of_le hi]
  rw [h.rubout_eq hstart, h.strcpyWithin_behind, hplace]
  split_ifs with hapart
  swap
  · exact iff_of_false (fun ⟨_, hs, _⟩ => nomatch hs) hapart
  · refine iff_of_true ?_ hapart
    obtain ⟨mem', hmem', hholds⟩ := h.copy_behind hi
    rw [htake] at hholds
    have hshown := h.change (z := ⟨withoutWord p.line.text.before, p.line.text.behind⟩) hholds
    refine ⟨_, ?_, hshown⟩
    rw [hmem', Option.map_some, hholds.cstr, hplace]
    rfl

/-- A line that is longer than the buffer is not shown. -/
theorem text_lt {l : Line} {s : Dl} (h : Edited.Shown env ⟨s, l⟩) :
    l.text.text.length < dlBufsize := h.length_eq ▸ h.len_lt

/-- **A paste** that fits goes to the end of the line, wherever the cursor is. -/
theorem paste_iff (h : p.Shown env) :
    (∃ s, dlPaste p.dl = some s ∧ Edited.Shown env ⟨s, p.line.paste⟩) ↔
      p.line.Keeps env .paste := by
  show _ ↔ ∀ clip, p.line.clipboard = some clip →
    p.line.text.text.length + clip.length < dlBufsize → p.line.text.behind = []
  unfold dlPaste Line.paste
  rw [h.clipboard]
  cases hclip : p.line.clipboard with
  | none => exact iff_of_true ⟨_, rfl, h⟩ nofun
  | some clip =>
    dsimp only
    rw [h.length_eq]
    by_cases hfits : p.line.text.text.length + clip.length < dlBufsize
    swap
    · rw [if_neg hfits, if_neg hfits]
      exact iff_of_true ⟨_, rfl, h⟩ fun _ hsome hlt => absurd (Option.some.inj hsome ▸ hlt) hfits
    obtain ⟨mem', hmem', hholds⟩ := h.holds.strcpy (Nat.le_refl _)
      (h.clipboard_text clip hclip) hfits
    rw [List.take_length] at hholds
    rw [if_pos hfits, if_pos hfits, h.holds.cstr, hmem', Option.map_some]
    by_cases hend : p.line.text.behind = []
    · refine iff_of_true ?_ fun _ _ _ => hend
      have hshown := h.fill hholds
      rw [Dl.fill, hholds.cstr, List.length_append] at hshown
      -- at the end of the line this is where the cursor is
      have htext : Zipper.atEnd (p.line.text.text ++ clip) =
          ⟨p.line.text.before ++ clip, p.line.text.behind⟩ := by
        rw [Zipper.atEnd, Zipper.text, hend, List.append_nil]
      rw [htext] at hshown
      exact ⟨_, rfl, { hshown with
        clipboard := rfl
        clipboard_text := fun _ hsome => Option.some.inj hsome ▸ h.clipboard_text clip hclip }⟩
    · refine iff_of_false ?_ fun hall => hend (hall clip rfl hfits)
      rintro ⟨s, hs, hshown⟩
      obtain rfl := Option.some.inj hs
      -- the cursor is behind what was behind it
      have hcursor : p.line.text.text.length + clip.length =
          (p.line.text.before ++ clip).length := hshown.cursor
      have hpos := List.length_pos_iff.mpr hend
      rw [Zipper.length_text, List.length_append] at hcursor
      omega

/-- **The line before in the history**, if it fits. -/
theorem up_iff (h : p.Shown env) :
    (∃ s, dlHistUp env p.dl = some s ∧ Edited.Shown env ⟨s, p.line.up env⟩) ↔
      p.line.Keeps env .up := by
  show _ ↔ (0 < p.line.histidx → ∀ line, env.history[p.line.histidx - 1]? = some line →
    line.val.length < dlBufsize)
  unfold dlHistUp Line.up
  rw [h.histidx]
  by_cases hpos : 0 < p.line.histidx
  · rw [if_pos hpos, if_pos hpos]
    have hin : p.line.histidx - 1 < env.history.length := by
      have hle := h.histidx_le
      omega
    rw [List.getElem?_eq_getElem hin]
    generalize env.history[p.line.histidx - 1] = line
    dsimp only
    constructor
    · rintro ⟨s, -, hshown⟩ - line' hline
      obtain rfl := Option.some.inj hline
      have hlt := hshown.text_lt
      rwa [Zipper.text_atEnd] at hlt
    · intro hlt
      have hholds := h.holds.strncpy line.property (hlt hpos line rfl)
      exact ⟨_, rfl, { h.fill hholds with histidx := rfl, histidx_le := Nat.le_of_lt hin }⟩
  · rw [if_neg hpos, if_neg hpos]
    exact iff_of_true ⟨_, rfl, h⟩ fun hpos' => absurd hpos' hpos

/-- **The line behind in the history**, if it fits, and the empty one behind
the last, if the history is not full. -/
theorem down_iff (h : p.Shown env) :
    Edited.Shown env ⟨dlHistDown env p.dl, p.line.down env⟩ ↔ p.line.Keeps env .down := by
  unfold dlHistDown Line.down Line.Keeps
  dsimp only
  rw [h.histidx]
  by_cases hin : p.line.histidx < env.history.length
  · rw [if_pos (hin.trans_le env.history_le), List.getElem?_eq_getElem hin]
    generalize env.history[p.line.histidx] = line
    dsimp only
    constructor
    · intro hshown
      have hlt := hshown.text_lt
      rwa [Zipper.text_atEnd] at hlt
    · intro hlt
      exact { h.fill (h.holds.strncpy line.property hlt) with histidx := rfl, histidx_le := hin }
  · rw [List.getElem?_eq_none (by omega)]
    dsimp only
    by_cases hroom : p.line.histidx < env.histsize
    · rw [if_pos hroom]
      exact iff_of_true { h.empty with histidx := rfl } (Or.inl hroom)
    · rw [if_neg hroom, or_iff_right hroom]
      constructor
      · intro hshown
        exact h.text.symm.trans (hshown.text.trans Zipper.text_atEnd)
      · -- the line stays, which is right where it is empty
        intro hnil
        exact { h.move (z := .atEnd []) hnil.symm with histidx := rfl }

/-- The words that `strncmp` finds. -/
theorem take_eq_iff {front : List u8} (w : CText) :
    w.val.take front.length = front ↔ front <+: w.val := by
  rw [List.prefix_iff_eq_take, eq_comm]

/-- The words that begin with the line, as `strncmp` finds them. -/
theorem wholes_eq (h : p.Shown env) :
    (fun w : CText => decide ((cstr p.dl.buffer).take p.dl.len = w.val.take p.dl.len)) =
      fun w => decide (p.line.text.text <+: w.val) := by
  funext w
  rw [h.text, h.length_eq, List.take_length, decide_eq_decide, eq_comm]
  exact take_eq_iff w

/-- And those that begin with what is before the cursor. -/
theorem fronts_eq (h : p.Shown env) :
    (fun w : CText => decide (w.val.take p.dl.idx = (cstr p.dl.buffer).take p.dl.idx)) =
      fun w => decide (p.line.text.before <+: w.val) := by
  funext w
  rw [h.text, h.cursor, Zipper.text, List.take_left, decide_eq_decide]
  exact take_eq_iff w

/-- In front of a line the words found for the last completion count. -/
theorem tab_front_iff (h : p.Shown env) (hcallback : ¬env.callback)
    (hstart : p.line.text.before = []) :
    (∃ s, dlComplete env p.dl = some s ∧ Edited.Shown env ⟨s, p.line⟩) ↔
      (p.line.text.text ≠ [] → p.line.found = 1 →
        ∀ w ∈ env.words, ¬p.line.text.text <+: w.val) := by
  have hidx : ¬0 < p.dl.idx := by
    rw [h.cursor, hstart]
    exact Nat.lt_irrefl 0
  have hsame : 0 < p.dl.len ∧ p.dl.opt = 1 ↔ p.line.text.text ≠ [] ∧ p.line.found = 1 := by
    rw [h.length_eq, List.length_pos_iff, h.found]
  unfold dlComplete
  rw [if_neg hcallback]
  dsimp only
  rw [h.wholes_eq, if_neg hidx]
  by_cases hstale : p.line.text.text ≠ [] ∧ p.line.found = 1
  · rw [if_pos (hsame.mpr hstale)]
    cases hfind : env.words.find? fun w => decide (p.line.text.text <+: w.val) with
    | none =>
      refine iff_of_true ⟨_, rfl, h⟩ fun _ _ w hw hpre => ?_
      have hnot := List.find?_eq_none.mp hfind w hw
      exact hnot (decide_eq_true hpre)
    | some w =>
      have hw : p.line.text.text <+: w.val := by simpa using List.find?_some hfind
      refine iff_of_false ?_ fun hall =>
        hall hstale.1 hstale.2 w (List.mem_of_find?_eq_some hfind) hw
      rintro ⟨s, hs, hshown⟩
      obtain ⟨buffer, -, rfl⟩ := Option.map_eq_some_iff.mp hs
      -- the cursor is behind the line, and should be in front of it
      have hcursor : (cstr buffer).length = 0 := hshown.cursor.trans (by rw [hstart]; rfl)
      have htext : cstr buffer = p.line.text.text := hshown.text
      rw [List.length_eq_zero_iff.mp hcursor] at htext
      exact hstale.1 htext.symm
  · rw [if_neg (mt hsame.mp hstale)]
    refine iff_of_true ⟨_, rfl, h⟩ fun hne hone => ?_
    exact absurd ⟨hne, hone⟩ hstale

/-- Behind some of the line they are counted, and one fits. -/
theorem tab_behind_iff (h : p.Shown env) (hcallback : ¬env.callback)
    (hstart : p.line.text.before ≠ []) :
    (∃ s, dlComplete env p.dl = some s ∧ Edited.Shown env ⟨s, p.line.complete env⟩) ↔
      ∀ w, p.line.completed env = some w → w.val.length < dlBufsize := by
  have hpos := List.length_pos_iff.mpr hstart
  have hlen : 0 < p.dl.len := by
    rw [h.length_eq]
    exact hpos.trans_le Zipper.length_before_le
  have hidx : 0 < p.dl.idx := by
    rw [h.cursor]
    exact hpos
  unfold dlComplete Line.complete
  rw [if_neg hcallback]
  dsimp only
  rw [h.wholes_eq, if_pos hidx, if_neg (not_or.mpr ⟨hcallback, hstart⟩), h.fronts_eq]
  unfold Line.completed
  by_cases hone : (env.words.countP fun w => decide (p.line.text.before <+: w.val)) = 1
  · rw [if_pos ⟨hlen, hone⟩, if_pos hone]
    cases hfind : env.words.find? fun w => decide (p.line.text.text <+: w.val) with
    | none =>
      refine iff_of_true ⟨_, rfl, { h with found := rfl }⟩ fun w hw => ?_
      cases hw
    | some w =>
      constructor
      · rintro ⟨s, -, hshown⟩ w' hw'
        obtain rfl := Option.some.inj hw'
        have hlt := hshown.text_lt
        rwa [Zipper.text_atEnd] at hlt
      · intro hlt
        obtain ⟨mem', hmem', hholds⟩ := h.holds.strcpy (Nat.zero_le _) w.property
          (by rw [Nat.zero_add]; exact hlt w rfl)
        rw [List.take_zero, List.nil_append] at hholds
        have hfill := h.fill hholds
        refine ⟨{ p.dl.fill mem' with
          opt := env.words.countP fun w => p.line.text.before <+: w.val }, ?_,
          { hfill with found := rfl }⟩
        dsimp only
        rw [hmem']
        rfl
  · rw [if_neg fun hand => hone hand.2, if_neg hone]
    refine iff_of_true ⟨_, rfl, { h with found := rfl }⟩ fun w hw => ?_
    cases hw

/-- **A completion** is wrong in front of a line where there was one before,
and with a word that does not fit. -/
theorem tab_iff (h : p.Shown env) :
    (∃ s, dlComplete env p.dl = some s ∧ Edited.Shown env ⟨s, p.line.complete env⟩) ↔
      p.line.Keeps env .tab := by
  have hkeeps : p.line.Keeps env .tab ↔ env.callback ∨ if p.line.text.before = [] then
      p.line.text.text ≠ [] → p.line.found = 1 → ∀ w ∈ env.words, ¬p.line.text.text <+: w.val
    else ∀ w, p.line.completed env = some w → w.val.length < dlBufsize := Iff.rfl
  by_cases hcallback : env.callback = true
  · have hidle : dlComplete env p.dl = some p.dl := if_pos hcallback
    have hsame : p.line.complete env = p.line := if_pos (Or.inl hcallback)
    rw [hidle, hsame]
    exact iff_of_true ⟨_, rfl, h⟩ (Or.inl hcallback)
  rw [hkeeps, or_iff_right hcallback]
  by_cases hstart : p.line.text.before = []
  · have hsame : p.line.complete env = p.line := if_pos (Or.inr hstart)
    rw [hsame, if_pos hstart]
    exact h.tab_front_iff hcallback hstart
  · rw [if_neg hstart]
    exact h.tab_behind_iff hcallback hstart

/-- **What each case keeps.** -/
theorem case_iff (h : p.Shown env) (case : DlCase) (hput : ∀ c, case = .put c → c ≠ 0) :
    (∃ s, dlCase env p.dl case = some s ∧ Edited.Shown env ⟨s, p.line.press env case⟩) ↔
      p.line.Keeps env case := by
  cases case with
  | put c => exact h.put_iff (hput c rfl)
  | backspace => exact h.backspace_iff
  | supr => exact h.supr_iff
  | rubout => exact h.rubout_iff
  | up => exact h.up_iff
  | tab => exact h.tab_iff
  | down => exact some_good_iff.trans h.down_iff
  | paste => exact h.paste_iff
  | eof => exact iff_of_true ⟨_, rfl, h.returns _⟩ trivial
  | ignore => exact iff_of_true ⟨_, rfl, h⟩ trivial
  | home => exact iff_of_true ⟨_, rfl, h.move (z := .atStart _) rfl⟩ trivial
  | end_ =>
    have hmove := h.move (z := .atEnd p.line.text.text) Zipper.text_atEnd
    rw [Zipper.before_atEnd, ← h.length_eq] at hmove
    exact iff_of_true ⟨_, rfl, hmove⟩ trivial
  | cancel => exact iff_of_true ⟨_, rfl, h.empty.returns _⟩ trivial
  | eofIfEmpty =>
    refine iff_of_true ⟨_, rfl, ?_⟩ trivial
    rw [Line.press, h.text]
    split_ifs
    · exact h.returns _
    · exact h
  | give =>
    refine iff_of_true ⟨_, rfl, ?_⟩ trivial
    rw [h.text]
    exact h.returns _
  | enter =>
    refine iff_of_true ⟨_, rfl, ?_⟩ trivial
    rw [h.text]
    exact h.returns _
  | left =>
    have hmove := h.move (z := p.line.text.left) Zipper.text_left
    rw [Zipper.length_before_left, ← h.cursor] at hmove
    exact iff_of_true ⟨_, rfl, hmove⟩ trivial
  | right =>
    have hmove := h.move (z := p.line.text.right) Zipper.text_right
    rw [Zipper.length_before_right, ← h.cursor, ← h.length_eq] at hmove
    exact iff_of_true ⟨_, rfl, hmove⟩ trivial
  | cut =>
    refine iff_of_true ⟨_, rfl, { h.empty with
      clipboard := congrArg some h.text
      clipboard_text := fun _ hclip => Option.some.inj hclip ▸ h.holds.text_notMem }⟩ trivial

end Edited.Shown

/-! ## Whole lines -/

/-- Only a character that is no NUL is put in. -/
theorem case_put {key : DlKey} (h : key.case = .put c) : c ≠ 0 := by
  cases key with
  | eof => cases h
  | byte b =>
    rintro rfl
    have hput : ∀ b : u8, dlSwitch b ≠ .put 0 := by decide +kernel
    exact hput b h
  | esc b d =>
    have hput : dlEscSwitch b d ≠ .put c := by
      unfold dlEscSwitch
      split_ifs
      · split <;> exact DlCase.noConfusion
      · exact DlCase.noConfusion
    exact absurd h hput

/-- **One key.** -/
theorem editedTurn_iff (h : p.Shown env) (key : DlKey) :
    (∃ q, editedTurn env p key = some q ∧ q.Shown env) ↔ p.line.KeepsKey env key := by
  unfold editedTurn
  rw [map_good_iff]
  unfold dlTurn Line.turn Line.KeepsKey
  have hret := h.ret
  cases hline : p.line.ret with
  | none =>
    rw [hline] at hret
    have hcase := h.case_iff key.case fun c => case_put
    -- a line that is still read: the NUL is stored, and the case runs
    rw [if_neg (by rw [hret]; decide), if_neg (by decide), h.store_nul, Option.bind_some, hcase]
    exact ⟨fun hkeeps _ => hkeeps, fun hkeeps => hkeeps rfl⟩
  | some ret =>
    rw [hline] at hret
    rw [if_pos (by rw [hret]; rfl), if_pos (by rfl)]
    exact iff_of_true ⟨_, rfl, h⟩ fun hnone => by cases hnone

/-- The editor when `dl_readline` is called, with what the last line has
left of the buffer. -/
def dlStart (old : List u8) (clipboard : Option CText) (histidx : ℕ) : Dl where
  buffer := 0 :: (old ++ [0])
  len := 0
  idx := 0
  clipboard := clipboard.map Subtype.val
  histidx := histidx
  opt := 0
  ret := none

/-- The empty line. -/
def lineStart (clipboard : Option CText) (histidx : ℕ) : Line where
  text := .atEnd []
  clipboard := clipboard.map Subtype.val
  histidx := histidx
  found := 0
  ret := none

/-- The line beside the editor. -/
def Edited.Beside (p : Edited) (l : Line) : Prop := p.line = l

theorem shown_start {old : List u8} (hold : old.length + 2 = dlBufsize)
    (clipboard : Option CText) (hhist : n ≤ env.history.length) :
    Edited.Shown env ⟨dlStart old clipboard n, lineStart clipboard n⟩ where
  idx_le := Nat.le_refl 0
  len_eq := rfl
  len_lt := (by decide : 0 < dlBufsize)
  text := rfl
  cursor := rfl
  ret := rfl
  clipboard := rfl
  clipboard_text := by
    intro clip hclip
    obtain ⟨text, -, rfl⟩ := Option.map_eq_some_iff.mp hclip
    exact text.property
  histidx := rfl
  histidx_le := hhist
  found := rfl
  memory := by
    rw [dlStart, List.length_cons, List.length_append, List.length_singleton]
    omega
  last := by
    rw [dlStart, ← List.cons_append]
    exact List.getLast?_concat

/-- **The editor has the line after every key exactly if** the line comes
through each of them. -/
theorem line_editor_iff (env : DlEnv) (old : List u8) (clipboard : Option CText) (histidx : ℕ)
    (keys : List DlKey) (hold : old.length + 2 = dlBufsize)
    (hhist : histidx ≤ env.history.length) :
    RunKeeps (editedTurn env) (Edited.Shown env)
        ⟨dlStart old clipboard histidx, lineStart clipboard histidx⟩ keys ↔
      AccountSafe (Line.turn env) (Line.KeepsKey env) (lineStart clipboard histidx) keys := by
  have hbeside : Edited.Beside ⟨dlStart old clipboard histidx, lineStart clipboard histidx⟩
      (lineStart clipboard histidx) := rfl
  refine runs_keep_iff_account ?_ ?_ (shown_start hold clipboard hhist) hbeside
  · rintro p l key hshown rfl
    exact editedTurn_iff hshown key
  · rintro p l key q - rfl hq
    obtain ⟨dl, -, rfl⟩ := Option.map_eq_some_iff.mp hq
    rfl

/-- No history and no words. -/
def bareEditor : DlEnv := ⟨[], [], 256, by decide, false⟩

/-- Two characters, and one put between them. -/
theorem put_between_shown :
    RunKeeps (editedTurn bareEditor) (Edited.Shown bareEditor)
      ⟨dlStart (List.replicate 1022 0) none 0, lineStart none 0⟩
      [.byte 97, .byte 99, .esc 0x5b 0x44, .byte 98, .byte 13] := by
  refine (line_editor_iff bareEditor (List.replicate 1022 0) none 0
    [.byte 97, .byte 99, .esc 0x5b 0x44, .byte 98, .byte 13] (by rw [List.length_replicate]; rfl)
    (Nat.le_refl 0)).mpr ?_
  refine accountSafe_cons.mpr ⟨fun _ => ?_, accountSafe_cons.mpr ⟨fun _ => ?_,
    accountSafe_cons.mpr ⟨fun _ => trivial, accountSafe_cons.mpr ⟨fun _ => ?_,
      accountSafe_cons.mpr ⟨fun _ => trivial, accountSafe_nil⟩⟩⟩⟩⟩
  · exact (by decide : 0 < 1000)
  · exact (by decide : 1 < 1000)
  · exact (by decide : 2 < dlBufsize - 1)

/-- **A paste goes to the end**: `b` that was cut, in front of an `a`. -/
theorem paste_behind :
    ¬RunKeeps (editedTurn bareEditor) (Edited.Shown bareEditor)
      ⟨dlStart (List.replicate 1022 0) none 0, lineStart none 0⟩
      [.byte 98, .byte 21, .byte 97, .byte 1, .byte 25, .byte 13] := by
  intro hkeeps
  obtain ⟨q, hq, hshown⟩ := hkeeps _ List.prefix_rfl
  have hret : (runOps (editedTurn bareEditor)
      ⟨dlStart (List.replicate 1022 0) none 0, lineStart none 0⟩
      [.byte 98, .byte 21, .byte 97, .byte 1, .byte 25, .byte 13]).map
        (fun q => (q.dl.ret, q.line.ret)) = some (some (some [97, 98]), some (some [98, 97])) := by
    decide +kernel
  rw [hq] at hret
  have hboth := Option.some.inj hret
  have hsame := hshown.ret
  rw [(Prod.mk.inj hboth).1, (Prod.mk.inj hboth).2] at hsame
  exact absurd hsame (by decide)

end Radare
