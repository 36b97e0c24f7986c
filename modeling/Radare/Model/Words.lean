import Mathlib.Data.List.DropRight
import Radare.Common.Lines
import Radare.Model.Word
/-!
# Words

`set0word` ends every word of a string with a NUL and counts the words, and
`get0word` hops over them. A string of words with one blank between them
comes apart into the words (`set0word_joined`, `get0word_joined`), and no word
that comes out of it has a blank (`blank_not_mem_get0word`).
-/

namespace Radare

variable {q c : u8} {w l mem rest : List u8} {n : ℕ}

/-- The loop of `set0word`: the words that begin, where `q` is the
character before, and the string with NULs for blanks. -/
def wordLoop : u8 → List u8 → ℕ × List u8
  | _, [] => (0, [])
  | q, p :: ps =>
    if p ≠ 32 ∧ (q = 0 ∨ q = 32) then
      let (i, buf) := wordLoop p ps
      (i + 1, p :: buf)
    else if p = 32 then
      let (i, buf) := wordLoop 0 ps
      (i, 0 :: buf)
    else
      let (i, buf) := wordLoop p ps
      (i, p :: buf)

/-- `set0word`: the value returned and the string after, without the NUL
behind it. -/
def set0word (str : List u8) : ℕ × List u8 :=
  if str = [] then (0, [])
  else
    let str := (str.dropWhile (· = 32)).rdropWhile (· = 32)
    -- the first character is compared with itself
    let (i, buf) := wordLoop (str.headD 0) str
    (i + 1, buf)

/-- `get0word`: the word a hop or more down the memory. -/
def get0word : ℕ → List u8 → List u8
  | 0, mem => mem.takeWhile (· ≠ 0)
  | n + 1, mem =>
    if mem.headD 0 = 0 then [] else get0word n (mem.drop ((mem.takeWhile (· ≠ 0)).length + 1))

/-! ## No blank is left -/

theorem blank_not_mem_wordLoop : 32 ∉ (wordLoop q l).2 := by
  induction l generalizing q with
  | nil => exact List.not_mem_nil
  | cons p ps ih =>
    unfold wordLoop
    split_ifs with hstart hblank
    · exact List.not_mem_cons_of_ne_of_not_mem (Ne.symm hstart.1) ih
    · exact List.not_mem_cons_of_ne_of_not_mem (by decide) ih
    · exact List.not_mem_cons_of_ne_of_not_mem (Ne.symm hblank) ih

theorem get0word_subset : get0word n mem ⊆ mem := by
  induction n generalizing mem with
  | zero => exact (List.takeWhile_sublist _).subset
  | succ n ih =>
    unfold get0word
    split_ifs
    · exact List.nil_subset _
    · exact fun c hc => List.drop_subset _ _ (ih hc)

/-- **A word has no blank.** -/
theorem blank_not_mem_get0word (str : List u8) (n : ℕ) :
    32 ∉ get0word n ((set0word str).2 ++ [0]) := by
  intro hmem
  rcases List.mem_append.mp (get0word_subset hmem) with h | h
  · unfold set0word at h
    split_ifs at h
    · cases h
    · exact blank_not_mem_wordLoop h
  · exact absurd (List.mem_singleton.mp h) (by decide)

/-! ## Words with one blank between them -/

/-- Characters of a word: neither a blank nor a NUL. -/
def IsWord (w : List u8) : Prop := ∀ c ∈ w, c ≠ 32 ∧ c ≠ 0

/-- In the middle of a word the loop goes on to its end. -/
theorem wordLoop_inside (hw : IsWord w) (hq : q ≠ 0 ∧ q ≠ 32) :
    wordLoop q (w ++ rest) =
      ((wordLoop (w.getLastD q) rest).1, w ++ (wordLoop (w.getLastD q) rest).2) := by
  induction w generalizing q with
  | nil => rfl
  | cons c w ih =>
    have hc := hw c List.mem_cons_self
    have hnot : ¬(c ≠ 32 ∧ (q = 0 ∨ q = 32)) := fun h => h.2.elim hq.1 hq.2
    rw [List.cons_append, wordLoop, if_neg hnot, if_neg hc.1,
      ih (fun d hd => hw d (List.mem_cons_of_mem _ hd)) ⟨hc.2, hc.1⟩]
    cases w with
    | nil => rfl
    | cons d w => simp [List.getLastD]

theorem wordLoop_blank : wordLoop q (32 :: rest) = ((wordLoop 0 rest).1, 0 :: (wordLoop 0 rest).2) := by
  rw [wordLoop, if_neg (fun h => h.1 rfl), if_pos rfl]

/-- Words with a character between them. -/
def joined (b : u8) : List (List u8) → List u8
  | [] => []
  | [w] => w
  | w :: w' :: ws => w ++ b :: joined b (w' :: ws)

variable {ws : List (List u8)}

/-- **The loop counts the words that begin**, and parts them. -/
theorem wordLoop_joined (hws : ∀ w ∈ ws, w ≠ [] ∧ IsWord w) :
    wordLoop 0 (joined 32 ws) = (ws.length, joined 0 ws) := by
  induction ws with
  | nil => rfl
  | cons w ws ih =>
    obtain ⟨hne, hw⟩ := hws w List.mem_cons_self
    specialize ih fun v hv => hws v (List.mem_cons_of_mem _ hv)
    obtain ⟨c, w, rfl⟩ := List.exists_cons_of_ne_nil hne
    have hc := hw c List.mem_cons_self
    have hw' : IsWord w := fun d hd => hw d (List.mem_cons_of_mem _ hd)
    -- the word begins behind a NUL, and is gone through to its end
    have hbegin : ∀ rest, wordLoop 0 (c :: (w ++ rest)) =
        ((wordLoop (w.getLastD c) rest).1 + 1, c :: (w ++ (wordLoop (w.getLastD c) rest).2)) := by
      intro rest
      rw [wordLoop, if_pos ⟨hc.1, Or.inl rfl⟩, wordLoop_inside hw' ⟨hc.2, hc.1⟩]
    cases ws with
    | nil =>
      have h := hbegin []
      rw [List.append_nil] at h
      simpa [joined, wordLoop] using h
    | cons w' ws =>
      show wordLoop 0 (c :: (w ++ 32 :: joined 32 (w' :: ws))) = _
      rw [hbegin, wordLoop_blank, ih]
      rfl

/-- Behind its last word a string loses its blanks. -/
theorem rdropWhile_blanks (hl : ∀ c ∈ l.getLast?, c ≠ 32) :
    (l ++ List.replicate n 32).rdropWhile (· = 32) = l := by
  unfold List.rdropWhile
  have hblank : ∀ c ∈ List.replicate n (32 : u8), (decide (c = 32)) = true := fun c hc =>
    decide_eq_true (List.eq_of_mem_replicate hc)
  rw [List.reverse_append, List.reverse_replicate, List.dropWhile_append_of_pos hblank]
  cases hrev : l.reverse with
  | nil =>
    rw [List.reverse_eq_nil_iff.mp hrev]
    rfl
  | cons c r =>
    have hlast : l.getLast? = some c := by rw [List.getLast?_eq_head?_reverse, hrev]; rfl
    rw [List.dropWhile_cons_of_neg (by simpa using hl c hlast), ← hrev, List.reverse_reverse]

theorem getLast?_joined (hws : ∀ w ∈ ws, w ≠ [] ∧ IsWord w) :
    ∀ c ∈ (joined 32 ws).getLast?, c ≠ 32 := by
  induction ws with
  | nil =>
    intro c hc
    cases hc
  | cons w ws ih =>
    specialize ih fun v hv => hws v (List.mem_cons_of_mem _ hv)
    obtain ⟨hne, hw⟩ := hws w List.mem_cons_self
    cases ws with
    | nil =>
      intro c hc
      exact (hw c (List.mem_of_getLast? hc)).1
    | cons w' ws =>
      obtain ⟨hne', -⟩ := hws w' (List.mem_cons_of_mem _ List.mem_cons_self)
      have hjoin : joined 32 (w' :: ws) ≠ [] := by
        cases ws with
        | nil => exact hne'
        | cons v vs =>
          show w' ++ _ ≠ []
          simp [hne']
      intro c hc
      refine ih c ?_
      have hlast : (joined 32 (w :: w' :: ws)).getLast? = (joined 32 (w' :: ws)).getLast? := by
        show (w ++ 32 :: joined 32 (w' :: ws)).getLast? = _
        rw [List.getLast?_append_cons, List.getLast?_cons_of_ne_nil hjoin]
      rwa [hlast] at hc

/-- **A string of words comes apart into them**, whatever blanks are behind
the last. -/
theorem set0word_joined (hne : ws ≠ []) (hws : ∀ w ∈ ws, w ≠ [] ∧ IsWord w) :
    set0word (joined 32 ws ++ List.replicate n 32) = (ws.length, joined 0 ws) := by
  obtain ⟨w, ws, rfl⟩ := List.exists_cons_of_ne_nil hne
  obtain ⟨hw, hword⟩ := hws w List.mem_cons_self
  obtain ⟨c, w, rfl⟩ := List.exists_cons_of_ne_nil hw
  have hc := hword c List.mem_cons_self
  obtain ⟨l, hl⟩ : ∃ l, joined 32 ((c :: w) :: ws) = c :: l := by
    cases ws with
    | nil => exact ⟨_, rfl⟩
    | cons w' ws => exact ⟨_, rfl⟩
  have hloop := wordLoop_joined hws
  have hstrip : ((c :: (l ++ List.replicate n 32)).dropWhile (· = 32)).rdropWhile (· = 32) =
      c :: l := by
    rw [List.dropWhile_cons_of_neg (by simpa using hc.1), ← List.cons_append, ← hl]
    exact rdropWhile_blanks (getLast?_joined hws)
  unfold set0word
  rw [hl, List.cons_append, if_neg (List.cons_ne_nil _ _)]
  dsimp only
  rw [hstrip]
  rw [hl] at hloop
  -- behind a NUL the first word counts, behind its own first character it does not
  have hnot : ¬(c ≠ 32 ∧ (c = 0 ∨ c = 32)) := fun h => h.2.elim hc.2 hc.1
  rw [wordLoop, if_pos ⟨hc.1, Or.inl rfl⟩] at hloop
  rw [List.headD_cons, wordLoop, if_neg hnot, if_neg hc.1]
  exact hloop

/-- The word at the front of the memory. -/
theorem get0word_zero (hw : IsWord w) : get0word 0 (w ++ 0 :: rest) = w :=
  Common.takeWhile_ne_cons fun h => (hw 0 h).2 rfl

/-- The words behind it. -/
theorem get0word_succ (hne : w ≠ []) (hw : IsWord w) :
    get0word (n + 1) (w ++ 0 :: rest) = get0word n rest := by
  obtain ⟨c, w, rfl⟩ := List.exists_cons_of_ne_nil hne
  have hc : c ≠ 0 := (hw c List.mem_cons_self).2
  have hhead : ((c :: w) ++ 0 :: rest).headD 0 = c := rfl
  have htake : ((c :: w) ++ 0 :: rest).takeWhile (· ≠ 0) = c :: w :=
    Common.takeWhile_ne_cons fun h => (hw 0 h).2 rfl
  rw [get0word, hhead, if_neg hc, htake, List.drop_length_add_append]
  rfl

/-- The first of some words, and the memory behind it. -/
theorem joined_cons (ws : List (List u8)) (w rest : List u8) :
    ∃ mem, joined 0 (w :: ws) ++ 0 :: rest = w ++ 0 :: mem ∧
      (ws = [] → mem = rest) ∧ (ws ≠ [] → mem = joined 0 ws ++ 0 :: rest) := by
  cases ws with
  | nil => exact ⟨rest, rfl, fun _ => rfl, fun h => absurd rfl h⟩
  | cons w' ws =>
    exact ⟨joined 0 (w' :: ws) ++ 0 :: rest, List.append_assoc .., fun h => (by cases h),
      fun _ => rfl⟩

/-- **And the words are found**, -/
theorem get0word_joined (rest : List u8) (hws : ∀ w ∈ ws, w ≠ [] ∧ IsWord w)
    (hn : n < ws.length) :
    get0word n (joined 0 ws ++ 0 :: rest) = ws[n] := by
  induction ws generalizing n with
  | nil => exact absurd hn (Nat.not_lt_zero n)
  | cons w ws ih =>
    obtain ⟨hne, hw⟩ := hws w List.mem_cons_self
    obtain ⟨mem, hmem, -, hmore⟩ := joined_cons ws w rest
    rw [hmem]
    cases n with
    | zero => exact get0word_zero hw
    | succ n =>
      have hlt : n < ws.length := Nat.lt_of_succ_lt_succ hn
      have hne' : ws ≠ [] := List.ne_nil_of_length_pos (by omega)
      rw [get0word_succ hne hw, hmore hne', ih (fun v hv => hws v (List.mem_cons_of_mem _ hv)) hlt]
      rfl

/-- and then what is behind them. -/
theorem get0word_behind (hne : ws ≠ []) (hws : ∀ w ∈ ws, w ≠ [] ∧ IsWord w) :
    get0word (ws.length + n) (joined 0 ws ++ 0 :: rest) = get0word n rest := by
  induction ws with
  | nil => exact absurd rfl hne
  | cons w ws ih =>
    obtain ⟨hw, hword⟩ := hws w List.mem_cons_self
    obtain ⟨mem, hmem, hlast, hmore⟩ := joined_cons ws w rest
    have hlen : (w :: ws).length + n = ws.length + n + 1 := by
      rw [List.length_cons]
      omega
    rw [hmem, hlen, get0word_succ hw hword]
    by_cases hnil : ws = []
    · rw [hlast hnil, hnil, List.length_nil, Nat.zero_add]
    · rw [hmore hnil, ih hnil fun v hv => hws v (List.mem_cons_of_mem _ hv)]

/-- Where the next character is a NUL, no word is found. -/
theorem get0word_nul : get0word n (0 :: rest) = [] := by
  cases n <;> rfl

end Radare
