import Radare.Common.Parting
import Radare.Model.Words
import Radare.Rio.Buffers
/-!
# Words in their buffer

`set0word` takes the blanks off both ends of its string, the ones behind from
the last character down, and puts a NUL over each of the others. It does this
where the string is, so every index is looked at here, and there is no result
outside of the buffer. In a string that has a word it does what is said of it
(`set0wordAt_eq`); of blanks alone the character in front of the string is
read.

`get0word` hops from one NUL to the character behind it, so that it finds an
empty word where there were two blanks. When the words of a string are counted
and found is `set0word_words_iff`.
-/

namespace Radare

open Common

/-! ## The code -/

/-- `str_cpy` inside one memory: a byte at a time, up to the NUL and with it. -/
def strCpyIn : ℕ → List u8 → ℕ → ℕ → Option (List u8)
  | 0, _, _, _ => none
  | fuel + 1, mem, dst, src =>
    mem[src]?.bind fun c =>
      if c = 0 then store mem dst 0
      else (store mem dst c).bind fun mem => strCpyIn fuel mem (dst + 1) (src + 1)

/-- The loop that moves the string down over its first character. -/
def chopFront : ℕ → List u8 → Option (List u8)
  | 0, _ => none
  | fuel + 1, mem =>
    mem[0]?.bind fun c =>
      if c = 32 then (strCpyIn mem.length mem 0 1).bind (chopFront fuel) else some mem

/-- The loop that takes blanks off the end, from the character before the
place given. -/
def chopBack : ℕ → List u8 → Option (List u8)
  | 0, _ => none
  | i + 1, mem => mem[i]?.bind fun c => if c = 32 then chopBack i (mem.set i 0) else some mem

/-- The loop that counts words, with the cursors `p` and `q`. -/
def countWords : ℕ → ℕ → ℕ → ℕ → List u8 → Option (ℕ × List u8)
  | 0, _, _, _, _ => none
  | fuel + 1, p, q, i, mem =>
    mem[p]?.bind fun c =>
      if c = 0 then some (i, mem)
      else mem[q]?.bind fun d =>
        if c ≠ 32 ∧ (d = 0 ∨ d = 32) then countWords fuel (p + 1) p (i + 1) mem
        else if c = 32 then countWords fuel (p + 1) p i (mem.set p 0)
        else countWords fuel (p + 1) p i mem

/-- `set0word`, in a buffer that starts with its string: the value returned,
and the buffer. -/
def set0wordAt (mem : List u8) : Option (ℕ × List u8) :=
  mem[0]?.bind fun c =>
    if c = 0 then some (0, mem)
    else (chopFront mem.length mem).bind fun mem =>
      (chopBack (cstr mem).length mem).bind fun mem => countWords (mem.length + 1) 0 0 1 mem

/-- `get0word`, from a place of the buffer: the place of the word. -/
def get0wordAt (mem : List u8) : ℕ → ℕ → Option ℕ
  | 0, ptr => mem[ptr]?.map fun _ => ptr
  | idx + 1, ptr =>
    mem[ptr]?.bind fun c =>
      if c = 0 then some ptr
      else if 0 ∈ mem.drop ptr then get0wordAt mem idx (ptr + (cstr (mem.drop ptr)).length + 1)
      else none

/-- The words of a string are counted, and each is found, and nothing but the
string is looked at. -/
def SplitsInto (text : List u8) (words : List (List u8)) : Prop :=
  ∃ mem, set0wordAt (text ++ [0]) = some (words.length, mem) ∧
    ∀ k (hk : k < words.length),
      ∃ ptr, get0wordAt mem k 0 = some ptr ∧ cstr (mem.drop ptr) = words[k]

variable {q c d : u8} {w l text junk done mem : List u8} {gs : List (ℕ × List u8)}
variable {m n i k p fuel ptr : ℕ}

/-! ## The loops -/

/-- A string moved down over one character, a byte at a time. -/
theorem strCpyIn_eq (front junk : List u8) (b : u8) (hl : 0 ∉ l) (hfuel : l.length < fuel) :
    strCpyIn fuel (front ++ b :: (l ++ 0 :: junk)) front.length (front.length + 1) =
      some (front ++ l ++ 0 :: 0 :: junk) := by
  induction l generalizing front b fuel with
  | nil =>
    obtain ⟨fuel, rfl⟩ : ∃ f, fuel = f + 1 := ⟨fuel - 1, by omega⟩
    have hget : (front ++ b :: ([] ++ 0 :: junk))[front.length + 1]? = some 0 :=
      getElem?_behind front _ 1
    rw [strCpyIn, hget, Option.bind_some, if_pos rfl, store_at, List.append_nil front]
    rfl
  | cons c l ih =>
    obtain ⟨hc, hl⟩ := not_or.mp (List.mem_cons.not.mp hl)
    rw [List.length_cons] at hfuel
    obtain ⟨fuel, rfl⟩ : ∃ f, fuel = f + 1 := ⟨fuel - 1, by omega⟩
    have hget : (front ++ b :: (c :: l ++ 0 :: junk))[front.length + 1]? = some c :=
      getElem?_behind front _ 1
    -- the character stored belongs to the front, and is still where it was read
    have hnext := ih (front ++ [c]) c hl (Nat.lt_of_succ_lt_succ hfuel)
    rw [List.length_append, List.length_singleton] at hnext
    rw [strCpyIn, hget, Option.bind_some, if_neg (Ne.symm hc), store_at, Option.bind_some]
    simpa using hnext

theorem replicate_append_cons (n : ℕ) (c : u8) (l : List u8) :
    List.replicate n c ++ c :: l = c :: (List.replicate n c ++ l) := by
  rw [← List.cons_append, ← List.replicate_succ, List.replicate_succ', List.append_assoc]
  rfl

theorem chopFront_blanks (hl : 0 ∉ l) (hhead : l.headD 0 ≠ 32) (hfuel : m < fuel) (junk : List u8) :
    chopFront fuel (List.replicate m 32 ++ l ++ 0 :: junk) =
      some (l ++ 0 :: (List.replicate m 0 ++ junk)) := by
  induction m generalizing fuel junk with
  | zero =>
    obtain ⟨fuel, rfl⟩ : ∃ f, fuel = f + 1 := ⟨fuel - 1, by omega⟩
    have hget : (l ++ 0 :: junk)[0]? = some (l.headD 0) := by cases l <;> rfl
    rw [List.replicate_zero, List.nil_append, chopFront, hget, Option.bind_some, if_neg hhead]
    rfl
  | succ m ih =>
    obtain ⟨fuel, rfl⟩ : ∃ f, fuel = f + 1 := ⟨fuel - 1, by omega⟩
    have hzero : 0 ∉ List.replicate m 32 ++ l := by
      intro hmem
      rcases List.mem_append.mp hmem with hmem | hmem
      · exact absurd (List.eq_of_mem_replicate hmem) (by decide)
      · exact hl hmem
    have hlength : (List.replicate m 32 ++ l).length <
        (List.replicate (m + 1) 32 ++ l ++ 0 :: junk).length := by
      simp
      omega
    have hcopy := strCpyIn_eq [] junk 32 hzero hlength
    have hget : (List.replicate (m + 1) 32 ++ l ++ 0 :: junk)[0]? = some (32 : u8) := rfl
    have hrest := ih (Nat.lt_of_succ_lt_succ hfuel) (0 :: junk)
    rw [replicate_append_cons] at hrest
    rw [chopFront, hget, Option.bind_some, if_pos rfl]
    exact (congrArg (Option.bind · (chopFront fuel)) hcopy).trans hrest

theorem chopBack_blanks (hlast : ∀ c ∈ l.getLast?, c ≠ 32) (hl : l ≠ []) (junk : List u8) :
    chopBack (l ++ List.replicate n 32).length (l ++ List.replicate n 32 ++ junk) =
      some (l ++ List.replicate n 0 ++ junk) := by
  induction n generalizing junk with
  | zero =>
    obtain ⟨front, c, rfl⟩ : ∃ front c, l = front ++ [c] :=
      ⟨_, _, (List.dropLast_append_getLast hl).symm⟩
    have hc : c ≠ 32 := hlast c (by simp)
    have hget : (front ++ [c] ++ junk)[front.length]? = some c := by simp
    simp only [List.replicate_zero, List.append_nil]
    rw [List.length_append, List.length_singleton, chopBack, hget, Option.bind_some, if_neg hc]
  | succ n ih =>
    have hfront : l ++ List.replicate (n + 1) 32 ++ junk =
        (l ++ List.replicate n 32) ++ 32 :: junk := by
      rw [List.replicate_succ']
      simp
    have hback : l ++ List.replicate (n + 1) 0 ++ junk = l ++ List.replicate n 0 ++ 0 :: junk := by
      rw [List.replicate_succ']
      simp
    have hlength : (l ++ List.replicate (n + 1) (32 : u8)).length =
        (l ++ List.replicate n (32 : u8)).length + 1 := by
      simp only [List.length_append, List.length_replicate]
      omega
    have hget : ((l ++ List.replicate n 32) ++ 32 :: junk)[(l ++ List.replicate n (32 : u8)).length]? =
        some 32 := by simp
    rw [hlength, hfront, hback, chopBack, hget, Option.bind_some, if_pos rfl, set_front, ih]

/-- **The loop counts** what `wordLoop` does. -/
theorem countWords_eq (done : List u8) (hl : 0 ∉ l) (hq : (done ++ l ++ 0 :: junk)[p]? = some q)
    (hfuel : l.length < fuel) :
    countWords fuel done.length p i (done ++ l ++ 0 :: junk) =
      some (i + (wordLoop q l).1, done ++ (wordLoop q l).2 ++ 0 :: junk) := by
  induction l generalizing done p q i fuel with
  | nil =>
    obtain ⟨fuel, rfl⟩ : ∃ f, fuel = f + 1 := ⟨fuel - 1, by omega⟩
    have hget : (done ++ [] ++ 0 :: junk)[done.length]? = some 0 := by simp
    rw [countWords, hget, Option.bind_some, if_pos rfl]
    rfl
  | cons c l ih =>
    obtain ⟨fuel, rfl⟩ : ∃ f, fuel = f + 1 := ⟨fuel - 1, by omega⟩
    rw [List.length_cons] at hfuel
    obtain ⟨hc, hl⟩ := not_or.mp (List.mem_cons.not.mp hl)
    have hget : (done ++ c :: l ++ 0 :: junk)[done.length]? = some c := by simp
    -- the character is behind what is done then, as it is or as a NUL
    have hnext : ∀ (d : u8) (j : ℕ),
        countWords fuel (done.length + 1) done.length j (done ++ d :: l ++ 0 :: junk) =
          some (j + (wordLoop d l).1, done ++ d :: (wordLoop d l).2 ++ 0 :: junk) := by
      intro d j
      have hshift : done ++ d :: l ++ 0 :: junk = (done ++ [d]) ++ l ++ 0 :: junk := by simp
      have hcursor : ((done ++ [d]) ++ l ++ 0 :: junk)[done.length]? = some d := by simp
      have hdone : (done ++ [d]).length = done.length + 1 := by simp
      rw [hshift, ← hdone, ih (done ++ [d]) hl hcursor (by omega)]
      simp
    have hset : (done ++ c :: l ++ 0 :: junk).set done.length 0 = done ++ 0 :: l ++ 0 :: junk := by
      rw [List.append_assoc, List.cons_append, set_front, List.append_assoc, List.cons_append]
    rw [countWords, hget, Option.bind_some, if_neg (Ne.symm hc), hq, Option.bind_some, wordLoop]
    split_ifs with hstart hblank
    · rw [hnext c (i + 1), Nat.add_assoc, Nat.add_comm 1]
    · rw [hset, hnext 0 i]
    · rw [hnext c i]

/-! ## Words and blanks -/

theorem isWord_of_part (hw : IsPart 32 w) (hzero : 0 ∉ w) : IsWord w := by
  intro c hc
  refine ⟨?_, ?_⟩
  · rintro rfl
    exact hw.2 hc
  · rintro rfl
    exact hzero hc

/-- Blanks become NULs. -/
theorem wordLoop_replicate (n : ℕ) (q : u8) (l : List u8) :
    wordLoop q (List.replicate (n + 1) 32 ++ l) =
      ((wordLoop 0 l).1, List.replicate (n + 1) 0 ++ (wordLoop 0 l).2) := by
  induction n generalizing q with
  | zero => exact wordLoop_blank
  | succ n ih =>
    rw [List.replicate_succ, List.cons_append, wordLoop_blank, ih]
    rfl

/-- **A word more for each gap.** -/
theorem wordLoop_gapped (hw : IsWord w) (hgs : ∀ g ∈ gs, g.2 ≠ [] ∧ IsWord g.2)
    (hq : q ≠ 0 ∧ q ≠ 32) :
    wordLoop q (w ++ gapped 32 gs) = (gs.length, w ++ gapped 0 gs) := by
  induction gs generalizing w q with
  | nil =>
    rw [wordLoop_inside hw hq]
    rfl
  | cons g gs ih =>
    obtain ⟨k, v⟩ := g
    obtain ⟨⟨hne, hv⟩, hrest⟩ := List.forall_mem_cons.mp hgs
    obtain ⟨c, v, rfl⟩ := List.exists_cons_of_ne_nil hne
    have hc := hv c List.mem_cons_self
    -- a word begins behind a NUL, and is gone through to its end
    have hbegin : wordLoop 0 (c :: v ++ gapped 32 gs) = (gs.length + 1, c :: v ++ gapped 0 gs) := by
      have hinside := ih (fun x hx => hv x (List.mem_cons_of_mem _ hx)) hrest ⟨hc.2, hc.1⟩
      rw [List.cons_append, wordLoop, if_pos ⟨hc.1, Or.inl rfl⟩, hinside]
      rfl
    rw [gapped, List.append_assoc, wordLoop_inside hw hq, wordLoop_replicate, hbegin]
    simp [gapped]

/-! ## A string split -/

/-- **`set0word` in its buffer**, of a string with blanks at its ends: each of these
leaves a NUL behind. -/
theorem set0wordAt_blanks (hl : 0 ∉ l) (hne : l ≠ []) (hhead : ∀ c ∈ l.head?, c ≠ 32)
    (hlast : ∀ c ∈ l.getLast?, c ≠ 32) (m n : ℕ) (junk : List u8) :
    set0wordAt (List.replicate m 32 ++ l ++ List.replicate n 32 ++ 0 :: junk) =
      some ((wordLoop (l.headD 0) l).1 + 1,
        (wordLoop (l.headD 0) l).2 ++ 0 :: (List.replicate n 0 ++ (List.replicate m 0 ++ junk))) := by
  have hblanks : ∀ k, 0 ∉ List.replicate k (32 : u8) := fun k hmem =>
    absurd (List.eq_of_mem_replicate hmem) (by decide)
  have hzero : 0 ∉ l ++ List.replicate n 32 := fun hmem =>
    (List.mem_append.mp hmem).elim hl (hblanks n)
  obtain ⟨c, r, rfl⟩ := List.exists_cons_of_ne_nil hne
  have hc : c ≠ 32 := hhead c rfl
  have hc0 : c ≠ 0 := fun h => hl (h ▸ List.mem_cons_self)
  have hmem : List.replicate m 32 ++ c :: r ++ List.replicate n 32 ++ 0 :: junk =
      List.replicate m 32 ++ (c :: r ++ List.replicate n 32) ++ 0 :: junk := by simp
  have hfirst : ∃ d, (List.replicate m 32 ++ (c :: r ++ List.replicate n 32) ++ 0 :: junk)[0]? =
      some d ∧ d ≠ 0 := by
    cases m with
    | zero => exact ⟨c, rfl, hc0⟩
    | succ m => exact ⟨32, rfl, by decide⟩
  obtain ⟨d, hd, hd0⟩ := hfirst
  have hfuel : m < (List.replicate m 32 ++ (c :: r ++ List.replicate n 32) ++ 0 :: junk).length := by
    simp
  have hfront := chopFront_blanks hzero (by exact hc) hfuel junk
  have hback := chopBack_blanks hlast hne (0 :: (List.replicate m 0 ++ junk)) (n := n)
  rw [List.append_assoc _ _ (0 :: _), List.append_assoc _ _ (0 :: _), replicate_append_cons n 0,
    ← List.append_assoc] at hback
  have hcount : countWords (([] ++ c :: r ++ 0 :: (List.replicate n 0 ++
        (List.replicate m 0 ++ junk))).length + 1) 0 0 1
      ([] ++ c :: r ++ 0 :: (List.replicate n 0 ++ (List.replicate m 0 ++ junk))) =
        some (1 + (wordLoop c (c :: r)).1, [] ++ (wordLoop c (c :: r)).2 ++
          0 :: (List.replicate n 0 ++ (List.replicate m 0 ++ junk))) :=
    countWords_eq [] hl rfl
      (by simp only [List.length_append, List.length_cons, List.length_nil]; omega)
  unfold set0wordAt
  rw [hmem, hd, Option.bind_some, if_neg hd0, hfront, Option.bind_some, cstr_front hzero, hback,
    Option.bind_some, Nat.add_comm (wordLoop _ _).1]
  exact hcount

/-- Of blanks alone, the character in front of the string is read. -/
theorem set0wordAt_none (n : ℕ) (junk : List u8) :
    set0wordAt (List.replicate (n + 1) 32 ++ 0 :: junk) = none := by
  have hfuel : n + 1 < (List.replicate (n + 1) (32 : u8) ++ [] ++ 0 :: junk).length := by simp
  have hfront := chopFront_blanks (l := []) List.not_mem_nil (by decide) hfuel junk
  have hget : (List.replicate (n + 1) (32 : u8) ++ 0 :: junk)[0]? = some 32 := rfl
  rw [List.append_nil] at hfront
  unfold set0wordAt
  rw [hget, Option.bind_some, if_neg (by decide), hfront]
  rfl

/-- **In its buffer the function does what is said of it**, if the string has
a word. -/
theorem set0wordAt_eq (hzero : 0 ∉ text) (hne : trimmed 32 text ≠ []) :
    ∃ junk, set0wordAt (text ++ [0]) = some ((set0word text).1, (set0word text).2 ++ 0 :: junk) := by
  rcases exists_gapped 32 text with ⟨n, rfl⟩ | ⟨m, w, gs, n, rfl, hw, hgs⟩
  · exact absurd (trimmed_replicate n) hne
  · have hl : 0 ∉ w ++ gapped 32 gs := fun hmem =>
      hzero (List.mem_append_left _ (List.mem_append_right _ hmem))
    have hhead : ∀ c ∈ (w ++ gapped 32 gs).head?, c ≠ 32 := by
      rw [List.head?_append_of_ne_nil _ hw.1]
      exact head?_part hw
    have hwne : w ++ gapped 32 gs ≠ [] := List.append_ne_nil_of_left_ne_nil hw.1 _
    have hset := set0wordAt_blanks hl hwne hhead (getLast?_gapped hw hgs) m n []
    generalize List.replicate n (0 : u8) ++ (List.replicate m 0 ++ []) = junk at hset
    have hstrip := trimmed_gapped (m := m) (n := n) hw hgs
    have htext : List.replicate m 32 ++ (w ++ gapped 32 gs) ++ List.replicate n 32 ≠ [] := by
      simp [hw.1]
    refine ⟨junk, hset.trans ?_⟩
    unfold set0word
    unfold trimmed at hstrip
    rw [if_neg htext, hstrip]

/-! ## Its words found -/

/-- A hop over a word. -/
theorem get0wordAt_hop (hmem : mem.drop ptr = w ++ 0 :: l) (hw : w ≠ []) (hzero : 0 ∉ w) (k : ℕ) :
    get0wordAt mem (k + 1) ptr = get0wordAt mem k (ptr + w.length + 1) ∧
      mem.drop (ptr + w.length + 1) = l := by
  obtain ⟨c, r, rfl⟩ := List.exists_cons_of_ne_nil hw
  have hget : mem[ptr]? = some c := by
    rw [← List.head?_drop, hmem]
    rfl
  have hc : c ≠ 0 := fun h => hzero (h ▸ List.mem_cons_self)
  refine ⟨?_, ?_⟩
  · rw [get0wordAt, hget, Option.bind_some, if_neg hc, hmem, if_pos (by simp), cstr_front hzero]
  · rw [Nat.add_assoc, ← List.drop_drop, hmem, List.drop_length_add_append]
    rfl

theorem get0wordAt_zero (hmem : mem.drop ptr = w ++ 0 :: l) (hzero : 0 ∉ w) :
    get0wordAt mem 0 ptr = some ptr ∧ cstr (mem.drop ptr) = w := by
  have hget : ∃ c, mem[ptr]? = some c := by
    rw [← List.head?_drop, hmem]
    cases w with
    | nil => exact ⟨0, rfl⟩
    | cons c r => exact ⟨c, rfl⟩
  obtain ⟨c, hc⟩ := hget
  rw [get0wordAt, hc, hmem, cstr_front hzero]
  exact ⟨rfl, rfl⟩

/-- **The words are found** exactly where one NUL is between any two. -/
theorem get0wordAt_all_iff (hmem : mem.drop ptr = w ++ gapped 0 gs ++ 0 :: junk)
    (hw : w ≠ [] ∧ 0 ∉ w) (hgs : ∀ g ∈ gs, g.2 ≠ [] ∧ 0 ∉ g.2) :
    (∀ k (hk : k < (w :: gs.map Prod.snd).length),
      ∃ p, get0wordAt mem k ptr = some p ∧ cstr (mem.drop p) = (w :: gs.map Prod.snd)[k]) ↔
        ∀ g ∈ gs, g.1 = 0 := by
  induction gs generalizing w ptr with
  | nil =>
    refine iff_of_true (fun k hk => ?_) fun g hg => absurd hg List.not_mem_nil
    obtain rfl : k = 0 := by simpa using hk
    rw [gapped, List.append_nil] at hmem
    exact ⟨ptr, get0wordAt_zero hmem hw.2⟩
  | cons g gs ih =>
    obtain ⟨n, v⟩ := g
    obtain ⟨hv, hrest⟩ := List.forall_mem_cons.mp hgs
    have hsplit : mem.drop ptr =
        w ++ 0 :: (List.replicate n 0 ++ v ++ gapped 0 gs ++ 0 :: junk) := by
      rw [hmem, gapped, List.replicate_succ]
      simp
    have hdrop := (get0wordAt_hop hsplit hw.1 hw.2 0).2
    rw [List.forall_mem_cons]
    cases n with
    | zero =>
      rw [← ih hdrop hv hrest, and_iff_right rfl]
      constructor
      · intro h k hk
        obtain ⟨p, hp, hword⟩ := h (k + 1) (Nat.succ_lt_succ hk)
        rw [(get0wordAt_hop hsplit hw.1 hw.2 k).1] at hp
        exact ⟨p, hp, hword⟩
      · intro h k hk
        cases k with
        | zero => exact ⟨ptr, get0wordAt_zero hsplit hw.2⟩
        | succ k =>
          obtain ⟨p, hp, hword⟩ := h k (Nat.lt_of_succ_lt_succ hk)
          refine ⟨p, ?_, hword⟩
          rw [(get0wordAt_hop hsplit hw.1 hw.2 k).1, hp]
    | succ n =>
      -- behind the first of two NULs stands the empty word
      refine iff_of_false (fun h => ?_) fun h => absurd h.1 (Nat.succ_ne_zero n)
      obtain ⟨p, hp, hword⟩ := h 1 (by simp)
      have hempty : mem.drop (ptr + w.length + 1) =
          [] ++ 0 :: (List.replicate n 0 ++ v ++ gapped 0 gs ++ 0 :: junk) := by
        rw [hdrop, List.replicate_succ]
        simp
      obtain ⟨hhere, hcstr⟩ := get0wordAt_zero hempty List.not_mem_nil
      rw [(get0wordAt_hop hsplit hw.1 hw.2 0).1, hhere] at hp
      rw [← Option.some.inj hp, hcstr] at hword
      exact hv.1 hword.symm

/-- **When a string is split into its words**: `set0word` counts them and
`get0word` finds each, with nothing but the string looked at, if and only if
the string is empty, or has a word and no two blanks one behind the other
but at its ends. -/
theorem set0word_words_iff (hzero : 0 ∉ text) :
    SplitsInto text (wordsOf 32 text) ↔
      text = [] ∨ trimmed 32 text ≠ [] ∧
        (trimmed 32 text).IsChain fun c d => c = 32 → d ≠ 32 := by
  rcases exists_gapped 32 text with ⟨n, rfl⟩ | ⟨m, w, gs, n, rfl, hw, hgs⟩
  · rw [wordsOf_replicate, trimmed_replicate]
    cases n with
    | zero =>
      refine iff_of_true ⟨[0], rfl, fun k hk => absurd hk (Nat.not_lt_zero k)⟩ (Or.inl rfl)
    | succ n =>
      refine iff_of_false ?_ ?_
      · rintro ⟨mem, hset, -⟩
        rw [set0wordAt_none n []] at hset
        cases hset
      · rintro (h | h)
        · cases h
        · exact h.1 rfl
  · have hl : 0 ∉ w ++ gapped 32 gs := fun hmem =>
      hzero (List.mem_append_left _ (List.mem_append_right _ hmem))
    have htext : List.replicate m 32 ++ (w ++ gapped 32 gs) ++ List.replicate n 32 ≠ [] := by
      simp [hw.1]
    have hne : trimmed 32 (List.replicate m 32 ++ (w ++ gapped 32 gs) ++ List.replicate n 32) ≠
        [] := by
      rw [trimmed_gapped hw hgs]
      exact List.append_ne_nil_of_left_ne_nil hw.1 _
    have hw0 : 0 ∉ w := fun hmem => hl (List.mem_append_left _ hmem)
    have hgs0 : ∀ g ∈ gs, 0 ∉ g.2 := fun g hg hmem =>
      hl (List.mem_append_right _ (mem_gapped hg hmem))
    have hhead : ∀ c ∈ (w ++ gapped 32 gs).head?, c ≠ 32 := by
      rw [List.head?_append_of_ne_nil _ hw.1]
      exact head?_part hw
    have hwne : w ++ gapped 32 gs ≠ [] := List.append_ne_nil_of_left_ne_nil hw.1 _
    have hloop : wordLoop ((w ++ gapped 32 gs).headD 0) (w ++ gapped 32 gs) =
        (gs.length, w ++ gapped 0 gs) := by
      refine wordLoop_gapped (isWord_of_part hw hw0)
        (fun g hg => ⟨(hgs g hg).1, isWord_of_part (hgs g hg) (hgs0 g hg)⟩) ?_
      obtain ⟨c, r, hcr⟩ := List.exists_cons_of_ne_nil hwne
      rw [hcr] at hl hhead ⊢
      exact ⟨fun h => hl (h ▸ List.mem_cons_self), hhead c rfl⟩
    have hset := set0wordAt_blanks hl hwne hhead (getLast?_gapped hw hgs) m n []
    generalize List.replicate n (0 : u8) ++ (List.replicate m 0 ++ []) = junk at hset
    have hlength : (w :: gs.map Prod.snd).length = gs.length + 1 := by simp
    have hmem : (w ++ gapped 0 gs ++ 0 :: junk).drop 0 = w ++ gapped 0 gs ++ 0 :: junk := rfl
    have hfound := get0wordAt_all_iff hmem ⟨hw.1, hw0⟩ fun g hg => ⟨(hgs g hg).1, hgs0 g hg⟩
    rw [hloop] at hset
    rw [or_iff_right htext, and_iff_right hne, trimmed_gapped hw hgs, isChain_gapped_iff hw hgs,
      wordsOf_gapped hw hgs, ← hfound]
    constructor
    · rintro ⟨mem, hset', hall⟩
      obtain ⟨-, rfl⟩ := Prod.mk.inj (Option.some.inj (hset.symm.trans hset'))
      exact hall
    · exact fun hall => ⟨_, hlength ▸ hset, hall⟩

/-! ## One blank between words -/

theorem joined_gapped (b : u8) (w : List u8) (hgs : ∀ g ∈ gs, g.1 = 0) :
    w ++ gapped b gs = joined b (w :: gs.map Prod.snd) := by
  induction gs generalizing w with
  | nil => exact List.append_nil w
  | cons g gs ih =>
    obtain ⟨k, v⟩ := g
    obtain ⟨hk, hrest⟩ := List.forall_mem_cons.mp hgs
    obtain rfl : k = 0 := hk
    rw [gapped, List.append_assoc, ih v hrest]
    rfl

/-- There is a NUL behind the string that `set0word` leaves, if there is a blank at an
end of its text or one behind. -/
def NulBehind (text junk : List u8) : Prop :=
  text.head? = some 32 ∨ text.getLast? = some 32 ∨ junk.head? = some 0

/-- **The words are left one behind the other**, if one blank is between any two. -/
theorem set0wordAt_single (hzero : 0 ∉ text)
    (hone : (trimmed 32 text).IsChain fun c d => c = 32 → d ≠ 32)
    (hset : set0wordAt (text ++ 0 :: junk) = some (n, mem)) :
    (∀ w ∈ wordsOf 32 text, w ≠ [] ∧ IsWord w) ∧ n = (wordsOf 32 text).length ∧
      ∃ rest, mem = joined 0 (wordsOf 32 text) ++ 0 :: rest ∧
        (NulBehind text junk → wordsOf 32 text = [] ∨ rest.head? = some 0) := by
  rcases exists_gapped 32 text with ⟨k, rfl⟩ | ⟨m, w, gs, k, rfl, hw, hgs⟩
  · rw [wordsOf_replicate]
    cases k with
    | zero =>
      obtain ⟨rfl, rfl⟩ := Prod.mk.inj (Option.some.inj hset)
      exact ⟨nofun, rfl, junk, rfl, fun _ => Or.inl rfl⟩
    | succ k =>
      rw [set0wordAt_none] at hset
      cases hset
  · have hl : 0 ∉ w ++ gapped 32 gs := fun hmem =>
      hzero (List.mem_append_left _ (List.mem_append_right _ hmem))
    have hw0 : IsWord w := isWord_of_part hw fun hmem => hl (List.mem_append_left _ hmem)
    have hgs0 : ∀ g ∈ gs, g.2 ≠ [] ∧ IsWord g.2 := fun g hg => ⟨(hgs g hg).1,
      isWord_of_part (hgs g hg) fun hmem => hl (List.mem_append_right _ (mem_gapped hg hmem))⟩
    have hhead : ∀ c ∈ (w ++ gapped 32 gs).head?, c ≠ 32 := by
      rw [List.head?_append_of_ne_nil _ hw.1]
      exact head?_part hw
    have hlast := getLast?_gapped hw hgs
    have hwne : w ++ gapped 32 gs ≠ [] := List.append_ne_nil_of_left_ne_nil hw.1 _
    have hloop : wordLoop ((w ++ gapped 32 gs).headD 0) (w ++ gapped 32 gs) =
        (gs.length, w ++ gapped 0 gs) := by
      refine wordLoop_gapped hw0 hgs0 ?_
      obtain ⟨c, r, hcr⟩ := List.exists_cons_of_ne_nil hwne
      rw [hcr] at hl hhead ⊢
      exact ⟨fun h => hl (h ▸ List.mem_cons_self), hhead c rfl⟩
    rw [trimmed_gapped hw hgs, isChain_gapped_iff hw hgs] at hone
    rw [set0wordAt_blanks hl hwne hhead hlast m k junk, hloop] at hset
    obtain ⟨rfl, rfl⟩ := Prod.mk.inj (Option.some.inj hset)
    rw [wordsOf_gapped hw hgs]
    refine ⟨?_, by simp, _, by rw [joined_gapped 0 w hone], fun hnul => Or.inr ?_⟩
    · intro v hv
      rcases List.mem_cons.mp hv with rfl | hv
      · exact ⟨hw.1, hw0⟩
      · obtain ⟨g, hg, rfl⟩ := List.mem_map.mp hv
        exact hgs0 g hg
    · -- a blank at an end leaves a NUL, and else it is the one behind
      rcases k with _ | k
      swap
      · rfl
      rcases m with _ | m
      swap
      · rfl
      rcases hnul with hfirst | hend | hjunk
      · exact absurd rfl (hhead 32 (by simpa using hfirst))
      · exact absurd rfl (hlast 32 (by simpa using hend))
      · exact hjunk

/-- One blank between two words. -/
theorem words_one_blank : SplitsInto [32, 97, 98, 32, 99] (wordsOf 32 [32, 97, 98, 32, 99]) :=
  (set0word_words_iff (by decide)).mpr (Or.inr (by decide))

/-- **Two blanks between two words**: of `a  b` the second is not found. -/
theorem words_two_blanks : ¬SplitsInto [97, 32, 32, 98] (wordsOf 32 [97, 32, 32, 98]) := by
  rintro ⟨mem, hset, hall⟩
  have hwords : wordsOf (32 : u8) [97, 32, 32, 98] = [[97], [98]] := by decide
  have hmem : set0wordAt ([97, 32, 32, 98] ++ [0]) = some (2, [97, 0, 0, 98, 0]) := by decide
  rw [hwords] at hset hall
  obtain ⟨-, rfl⟩ := Prod.mk.inj (Option.some.inj (hmem.symm.trans hset))
  obtain ⟨ptr, hptr, hword⟩ := hall 1 (by decide)
  have hplace : get0wordAt [97, 0, 0, 98, 0] 1 0 = some 2 := by decide
  rw [hplace] at hptr
  obtain rfl := Option.some.inj hptr
  exact absurd hword (by decide)

end Radare
