import Radare.Common.Loop
import Radare.Cons.Grep
/-!
# Where the two filters agree

`cons_render` prints the lines that pass, each with its newline. In place,
a line that passes and is empty ends the filter, so that the lines behind
it are left as they are; and a line that was asked for by its number is
left without its newline. Without a pattern, nothing is done in place at all.
When both give the same text is `grepbuf_eq_render_iff`.
-/

namespace Radare

open Common

/-- Lines with their newlines. -/
def unlines (lines : List (List u8)) : List u8 := lines.flatMap (· ++ [10])

/-- Neither a newline nor a NUL in a line. -/
def IsLine (line : List u8) : Prop := 10 ∉ line ∧ 0 ∉ line

/-- A buffer of lines; its length is an `int`. -/
structure ConsLines where
  lines : List (List u8)
  isLine : ∀ line ∈ lines, IsLine line
  fits : (unlines lines).length < 2 ^ 31

/-- The memory that it is in. -/
def ConsLines.buffer (t : ConsLines) : List u8 := unlines t.lines ++ [0]

/-! ## What they should print and leave -/

/-- The lines that `cons_render` prints. -/
def Grep.printed (g : Grep) (lines : List (List u8)) (line : ℕ) : List (List u8) :=
  if g.grepline = -1 then lines.filter g.hit
  else (nthFrom g.grepline line (lines.filter g.hit)).toList

/-- The text that `cons_grepbuf` leaves, when no line is asked for by its
number: an empty line that passes is the last one that it looks at. -/
def Grep.passed (g : Grep) : List (List u8) → List u8
  | [] => []
  | l :: ls =>
    if g.hit l then
      if l = [] then unlines (l :: ls) else l ++ 10 :: g.passed ls
    else g.passed ls

/-- The text that it leaves when a line is asked for. -/
def Grep.selected (g : Grep) (lines : List (List u8)) (line : ℕ) : List u8 :=
  (nthFrom g.grepline line (lines.filter g.hit)).getD []

/-- **When the filters agree.** With a pattern and no line asked for: if an empty
line passes, so does every line behind the first empty one. With a pattern and a
line asked for: there is no such line. With a line asked for and no pattern: it
is the only one, or there is none. -/
def Grep.Agrees (g : Grep) (lines : List (List u8)) : Prop :=
  if g.grepstr = none then
    g.grepline = -1 ∨ lines = [] ∨ lines.length = 1 ∧ g.grepline = 0
  else if g.grepline = -1 then g.hit [] → ∀ l ∈ (lines.dropWhile (· ≠ [])).tail, g.hit l
  else g.grepline < 0 ∨ (lines.filter g.hit).length ≤ g.grepline

/-! ## A line in memory -/

variable {g : Grep} {l rest junk obuf : List u8} {ls : List (List u8)} {c : u8}
variable {fuel line : ℕ} {len n : ℤ}

theorem unlines_cons : unlines (l :: ls) = l ++ 10 :: unlines ls := by
  unfold unlines
  rw [List.flatMap_cons, List.append_assoc, List.singleton_append]

theorem idxOf?_front (hc : c ∉ l) : (l ++ c :: rest).idxOf? c = some l.length := by
  induction l with
  | nil => rw [List.nil_append, List.idxOf?_cons, if_pos (beq_self_eq_true c), List.length_nil]
  | cons d l ih =>
    rw [List.mem_cons, not_or] at hc
    rw [List.cons_append, List.idxOf?_cons, if_neg (by rw [beq_iff_eq]; exact Ne.symm hc.1),
      ih hc.2, Option.map_some, List.length_cons]

theorem memchr_front (hl : 10 ∉ l) (hlen : (l.length : ℤ) < len) (hlt : len < 2 ^ 64) :
    memchr (l ++ 10 :: rest) 10 len = some l.length := by
  unfold memchr
  obtain ⟨k, hk⟩ : ∃ k, (len % 2 ^ 64).toNat = l.length + (k + 1) :=
    ⟨(len % 2 ^ 64).toNat - l.length - 1, by omega⟩
  rw [hk, List.take_length_add_append, List.take_succ_cons]
  exact idxOf?_front hl

theorem drop_front : (l ++ c :: rest).drop (l.length + 1) = rest := by
  rw [List.drop_length_add_append, List.drop_succ_cons, List.drop_zero]

theorem take_front : (l ++ c :: rest).take (l.length + 1) = l ++ [c] := by
  rw [List.take_length_add_append, List.take_succ_cons, List.take_zero]

theorem zero_notMem_unlines (h : ∀ l ∈ ls, IsLine l) : 0 ∉ unlines ls := by
  intro hmem
  obtain ⟨l, hl, hmem⟩ := List.mem_flatMap.mp hmem
  rcases List.mem_append.mp hmem with hmem | hmem
  · exact (h l hl).2 hmem
  · exact absurd hmem (by decide)

/-- The lines behind a line, moved to the front of it. -/
theorem strCpy_front (l : List u8) (c : u8) (junk : List u8) (h : ∀ l ∈ ls, IsLine l) :
    ∃ junk', strCpy (l ++ c :: (unlines ls ++ 0 :: junk)) (l.length + 1) =
      unlines ls ++ 0 :: junk' := by
  unfold strCpy
  dsimp only
  rw [drop_front, cstr_front (zero_notMem_unlines h), List.append_assoc, List.singleton_append]
  exact ⟨_, rfl⟩

theorem head_front (hl : IsLine l) : (l ++ 10 :: rest).head? ≠ some 0 := by
  cases l with
  | nil => exact fun h => absurd (Option.some.inj h) (by decide)
  | cons d l =>
    intro h
    obtain rfl := Option.some.inj h
    exact hl.2 List.mem_cons_self

/-! ## One line -/

/-- **A turn of `cons_grepbuf`.** -/
theorem grepLoop_line (hl : IsLine l) (hlen : (l.length : ℤ) < len) (hlt : len < 2 ^ 64) :
    grepLoop g (fuel + 1) obuf (l ++ 10 :: rest) len n =
      if g.hit l then
        if g.grepline ≠ -1 then
          if g.grepline = n then
            some (obuf ++ (l ++ 0 :: rest), strlenInt (cstr (obuf ++ (l ++ 0 :: rest))))
          else
            grepLoop g fuel obuf (strCpy (l ++ 10 :: rest) (l.length + 1)) (len - l.length) (n + 1)
        else if l.length > 0 then grepLoop g fuel (obuf ++ (l ++ [10])) rest len (n + 1)
        else some (obuf ++ (l ++ 10 :: rest), len)
      else grepLoop g fuel obuf (strCpy (l ++ 0 :: rest) (l.length + 1)) (len - l.length) n := by
  rw [grepLoop, if_neg (head_front hl), memchr_front hl.1 hlen hlt]
  dsimp only
  rw [set_front, cstr_front hl.2, take_front, drop_front]

/-- **A turn of `cons_render`.** -/
theorem renderLoop_line (hl : IsLine l) (hrest : 0 ∉ rest) {n : ℤ} :
    renderLoop g (fuel + 1) (l ++ 10 :: (rest ++ 0 :: junk)) n =
      if g.hit l then
        (renderLoop g fuel (rest ++ 0 :: junk) (n + 1)).map
          ((if g.grepline = -1 ∨ g.grepline = n then l ++ [10] else []) ++ ·)
      else renderLoop g fuel (rest ++ 0 :: junk) n := by
  have hzero : 0 ∉ l ++ 10 :: rest := by
    rw [List.mem_append, List.mem_cons, not_or, not_or]
    exact ⟨hl.2, by decide, hrest⟩
  have hassoc : l ++ 10 :: (rest ++ 0 :: junk) = (l ++ 10 :: rest) ++ 0 :: junk := by
    rw [List.append_assoc, List.cons_append]
  rw [renderLoop, hassoc, cstr_front hzero, idxOf?_front hl.1]
  dsimp only
  rw [← hassoc, set_front, cstr_front hl.2, drop_front, List.take_left]

/-! ## All lines -/

/-- **What `cons_grepbuf` leaves** of lines, with none asked for. -/
theorem grepLoop_passed (hsel : g.grepline = -1) (h : ∀ l ∈ ls, IsLine l)
    (hlen : ((unlines ls).length : ℤ) ≤ len) (hlt : len < 2 ^ 64) (hfuel : ls.length < fuel) :
    ∃ junk' len', grepLoop g fuel obuf (unlines ls ++ 0 :: junk) len n =
      some (obuf ++ (g.passed ls ++ 0 :: junk'), len') := by
  induction ls generalizing fuel obuf junk len n with
  | nil =>
    obtain ⟨fuel, rfl⟩ := Nat.exists_eq_add_one_of_ne_zero (Nat.ne_zero_of_lt hfuel)
    exact ⟨junk, len, if_pos rfl⟩
  | cons l ls ih =>
    obtain ⟨fuel, rfl⟩ := Nat.exists_eq_add_one_of_ne_zero (Nat.ne_zero_of_lt hfuel)
    rw [List.length_cons] at hfuel
    have hl := h l List.mem_cons_self
    have hls : ∀ l ∈ ls, IsLine l := fun l hl => h l (List.mem_cons_of_mem _ hl)
    rw [unlines_cons, List.length_append, List.length_cons] at hlen
    rw [unlines_cons, List.append_assoc, List.cons_append,
      grepLoop_line hl (by omega) hlt, Grep.passed]
    by_cases hhit : g.hit l
    · rw [if_pos hhit, if_pos hhit, if_neg (by rw [hsel]; exact fun h => h rfl)]
      by_cases hnil : l = []
      · rw [if_neg (by rw [hnil]; decide), if_pos hnil, unlines_cons]
        exact ⟨junk, len, by rw [List.append_assoc, List.cons_append]⟩
      · have hpos := List.length_pos_of_ne_nil hnil
        rw [if_pos hpos, if_neg hnil]
        have hassoc : ∀ junk', obuf ++ (l ++ 10 :: g.passed ls ++ 0 :: junk') =
            obuf ++ (l ++ [10]) ++ (g.passed ls ++ 0 :: junk') := by
          intro junk'
          simp only [List.append_assoc, List.cons_append, List.nil_append]
        simp only [hassoc]
        exact ih hls (by omega) hlt (by omega)
    · rw [if_neg hhit, if_neg hhit]
      obtain ⟨junk₁, hcopy⟩ := strCpy_front l 0 junk hls
      rw [hcopy]
      exact ih hls (by omega) (by omega) (by omega)

/-- **What `cons_grepbuf` leaves** of lines, with one asked for. -/
theorem grepLoop_selected (hsel : g.grepline ≠ -1) (h : ∀ l ∈ ls, IsLine l)
    (hlen : ((unlines ls).length : ℤ) ≤ len) (hlt : len < 2 ^ 64) (hfuel : ls.length < fuel) :
    ∃ junk' len', grepLoop g fuel [] (unlines ls ++ 0 :: junk) len line =
      some (g.selected ls line ++ 0 :: junk', len') := by
  induction ls generalizing fuel junk len line with
  | nil =>
    obtain ⟨fuel, rfl⟩ := Nat.exists_eq_add_one_of_ne_zero (Nat.ne_zero_of_lt hfuel)
    exact ⟨junk, len, if_pos rfl⟩
  | cons l ls ih =>
    obtain ⟨fuel, rfl⟩ := Nat.exists_eq_add_one_of_ne_zero (Nat.ne_zero_of_lt hfuel)
    rw [List.length_cons] at hfuel
    have hl := h l List.mem_cons_self
    have hls : ∀ l ∈ ls, IsLine l := fun l hl => h l (List.mem_cons_of_mem _ hl)
    rw [unlines_cons, List.length_append, List.length_cons] at hlen
    rw [unlines_cons, List.append_assoc, List.cons_append, grepLoop_line hl (by omega) hlt]
    unfold Grep.selected
    by_cases hhit : g.hit l
    · rw [if_pos hhit, if_pos hsel, List.filter_cons_of_pos hhit, nthFrom]
      by_cases hline : g.grepline = line
      · rw [if_pos hline, if_pos hline.symm]
        exact ⟨unlines ls ++ 0 :: junk, _, rfl⟩
      · rw [if_neg hline, if_neg (Ne.symm hline)]
        obtain ⟨junk₁, hcopy⟩ := strCpy_front l 10 junk hls
        rw [hcopy]
        exact ih hls (by omega) (by omega) (by omega)
    · rw [if_neg hhit, List.filter_cons_of_neg hhit]
      obtain ⟨junk₁, hcopy⟩ := strCpy_front l 0 junk hls
      rw [hcopy]
      exact ih hls (by omega) (by omega) (by omega)

/-- **What `cons_render` prints.** -/
theorem renderLoop_printed (h : ∀ l ∈ ls, IsLine l) (hfuel : ls.length < fuel) :
    renderLoop g fuel (unlines ls ++ 0 :: junk) line = some (unlines (g.printed ls line)) := by
  induction ls generalizing fuel line with
  | nil =>
    obtain ⟨fuel, rfl⟩ := Nat.exists_eq_add_one_of_ne_zero (Nat.ne_zero_of_lt hfuel)
    unfold Grep.printed
    split_ifs <;> rfl
  | cons l ls ih =>
    obtain ⟨fuel, rfl⟩ := Nat.exists_eq_add_one_of_ne_zero (Nat.ne_zero_of_lt hfuel)
    rw [List.length_cons] at hfuel
    have hl := h l List.mem_cons_self
    have hls : ∀ l ∈ ls, IsLine l := fun l hl => h l (List.mem_cons_of_mem _ hl)
    rw [unlines_cons, List.append_assoc, List.cons_append,
      renderLoop_line hl (zero_notMem_unlines hls)]
    unfold Grep.printed
    by_cases hhit : g.hit l
    · have hnext : renderLoop g fuel (unlines ls ++ 0 :: junk) ((line : ℤ) + 1) =
          some (unlines (g.printed ls (line + 1))) := ih hls (by omega)
      unfold Grep.printed at hnext
      rw [if_pos hhit, List.filter_cons_of_pos hhit, hnext, Option.map_some]
      by_cases hsel : g.grepline = -1
      · rw [if_pos hsel, if_pos hsel, if_pos (Or.inl hsel), unlines_cons, List.append_assoc,
          List.singleton_append]
      · rw [if_neg hsel, if_neg hsel, nthFrom]
        by_cases hline : g.grepline = line
        · rw [if_pos (Or.inr hline), if_pos hline.symm, nthFrom_eq, if_pos (by omega)]
          rfl
        · rw [if_neg (not_or.mpr ⟨hsel, hline⟩), if_neg (Ne.symm hline), List.nil_append]
    · rw [if_neg hhit, List.filter_cons_of_neg hhit]
      exact ih hls (by omega)

/-! ## The two texts -/

theorem length_unlines_filter_le (ls : List (List u8)) (p : List u8 → Bool) :
    (unlines (ls.filter p)).length ≤ (unlines ls).length := by
  induction ls with
  | nil => exact le_rfl
  | cons l ls ih =>
    rw [List.filter_cons]
    split_ifs
    · rw [unlines_cons, unlines_cons]
      simp only [List.length_append, List.length_cons]
      omega
    · rw [unlines_cons, List.length_append, List.length_cons]
      omega

theorem length_le_unlines (hl : l ∈ ls) : l.length + 1 ≤ (unlines ls).length := by
  induction ls with
  | nil => cases hl
  | cons l' ls ih =>
    rw [unlines_cons, List.length_append, List.length_cons]
    rcases List.mem_cons.mp hl with rfl | hl
    · omega
    · have := ih hl
      omega

/-- Nothing is left out if the text stays the same. -/
theorem unlines_filter_eq_iff {p : List u8 → Bool} :
    unlines ls = unlines (ls.filter p) ↔ ∀ l ∈ ls, p l := by
  induction ls with
  | nil => exact iff_of_true rfl fun l hl => absurd hl List.not_mem_nil
  | cons l ls ih =>
    rw [List.forall_mem_cons, ← ih]
    by_cases hp : p l
    · rw [List.filter_cons_of_pos hp, unlines_cons, unlines_cons, List.append_right_inj,
        List.cons_inj_right, and_iff_right hp]
    · rw [List.filter_cons_of_neg hp]
      refine iff_of_false (fun heq => ?_) fun h => hp h.1
      have hlen := congrArg List.length heq
      have := length_unlines_filter_le ls p
      rw [unlines_cons, List.length_append, List.length_cons] at hlen
      omega

theorem passed_eq_iff :
    g.passed ls = unlines (ls.filter g.hit) ↔
      (g.hit [] → ∀ l ∈ (ls.dropWhile (· ≠ [])).tail, g.hit l) := by
  induction ls with
  | nil => exact iff_of_true rfl fun _ l hl => absurd hl List.not_mem_nil
  | cons l ls ih =>
    rw [Grep.passed]
    by_cases hhit : g.hit l
    · rw [if_pos hhit, List.filter_cons_of_pos hhit]
      by_cases hnil : l = []
      · rw [if_pos hnil, unlines_cons, unlines_cons, List.append_right_inj, List.cons_inj_right,
          unlines_filter_eq_iff, List.dropWhile_cons_of_neg (by simpa using hnil), List.tail_cons,
          forall_prop_of_true (hnil ▸ hhit)]
      · rw [if_neg hnil, unlines_cons, List.append_right_inj, List.cons_inj_right, ih,
          List.dropWhile_cons_of_pos (by simpa using hnil)]
    · rw [if_neg hhit, List.filter_cons_of_neg hhit, ih]
      by_cases hnil : l = []
      · have hempty : ¬g.hit [] := hnil ▸ hhit
        exact iff_of_true (fun h => absurd h hempty) fun h => absurd h hempty
      · rw [List.dropWhile_cons_of_pos (by simpa using hnil)]

theorem selected_eq_iff :
    g.selected ls 0 = unlines (nthFrom g.grepline 0 (ls.filter g.hit)).toList ↔
      g.grepline < 0 ∨ (ls.filter g.hit).length ≤ g.grepline := by
  unfold Grep.selected
  rw [nthFrom_eq, Int.natCast_zero, Int.sub_zero]
  by_cases hneg : g.grepline < 0
  · rw [if_pos hneg]
    exact iff_of_true rfl (Or.inl hneg)
  · rw [if_neg hneg, or_iff_right hneg]
    cases hget : (ls.filter g.hit)[g.grepline.toNat]? with
    | none =>
      have := List.getElem?_eq_none_iff.mp hget
      exact iff_of_true rfl (by omega)
    | some l =>
      obtain ⟨hlt, -⟩ := List.getElem?_eq_some_iff.mp hget
      refine iff_of_false (fun heq => ?_) (by omega)
      have hlen := congrArg List.length heq
      rw [Option.toList_some, unlines_cons, List.length_append, List.length_cons,
        Option.getD_some] at hlen
      omega

/-- Without a pattern all lines are left, and what is printed are these if no line is
asked for or the only one. -/
theorem printed_eq_iff (hnull : g.grepstr = none) :
    unlines ls = unlines (g.printed ls 0) ↔
      g.grepline = -1 ∨ ls = [] ∨ ls.length = 1 ∧ g.grepline = 0 := by
  have hhit : ∀ l ∈ ls, g.hit l = true := fun l _ => by rw [Grep.hit, hnull]
  rw [Grep.printed, List.filter_eq_self.mpr hhit]
  by_cases hsel : g.grepline = -1
  · rw [if_pos hsel]
    exact iff_of_true rfl (Or.inl hsel)
  rw [if_neg hsel, or_iff_right hsel, nthFrom_eq, Int.natCast_zero, Int.sub_zero]
  cases ls with
  | nil => exact iff_of_true (by split_ifs <;> rfl) (Or.inl rfl)
  | cons l ls =>
    rw [or_iff_right (List.cons_ne_nil l ls), List.length_cons]
    by_cases hfirst : g.grepline = 0
    · rw [if_neg (by omega), hfirst, Int.toNat_zero, List.getElem?_cons_zero, Option.toList_some,
        unlines_cons, unlines_cons, List.append_right_inj, List.cons_inj_right]
      cases ls with
      | nil => exact iff_of_true rfl ⟨rfl, rfl⟩
      | cons l' ls =>
        refine iff_of_false (fun heq => ?_) fun h => by simp at h
        rw [unlines_cons] at heq
        exact absurd heq (by simp [unlines])
    · refine iff_of_false (fun heq => ?_) fun h => hfirst h.2
      have hlen := congrArg List.length heq
      rw [unlines_cons, List.length_append, List.length_cons] at hlen
      split_ifs at hlen with hneg
      · exact absurd hlen (by simp [unlines])
      obtain ⟨k, hk⟩ : ∃ k, g.grepline.toNat = k + 1 := ⟨g.grepline.toNat - 1, by omega⟩
      rw [hk, List.getElem?_cons_succ] at hlen
      cases hget : ls[k]? with
      | none =>
        rw [hget] at hlen
        exact absurd hlen (by simp [unlines])
      | some l' =>
        have hle := length_le_unlines (List.mem_of_getElem? hget)
        rw [hget, Option.toList_some, unlines_cons, List.length_append, List.length_cons] at hlen
        have hnil : (unlines ([] : List (List u8))).length = 0 := rfl
        omega

theorem zero_notMem_passed (h : ∀ l ∈ ls, IsLine l) : 0 ∉ g.passed ls := by
  induction ls with
  | nil => exact List.not_mem_nil
  | cons l ls ih =>
    have hls : ∀ l ∈ ls, IsLine l := fun l hl => h l (List.mem_cons_of_mem _ hl)
    rw [Grep.passed]
    split_ifs
    · exact zero_notMem_unlines h
    · rw [List.mem_append, List.mem_cons, not_or, not_or]
      exact ⟨(h l List.mem_cons_self).2, by decide, ih hls⟩
    · exact ih hls

theorem zero_notMem_selected (h : ∀ l ∈ ls, IsLine l) : 0 ∉ g.selected ls 0 := by
  unfold Grep.selected
  rw [nthFrom_eq]
  split_ifs
  · exact List.not_mem_nil
  · cases hget : (ls.filter g.hit)[(g.grepline - (0 : ℕ)).toNat]? with
    | none => exact List.not_mem_nil
    | some l => exact (h l (List.mem_of_mem_filter (List.mem_of_getElem? hget))).2

/-- There is a turn for each line. -/
theorem length_lt_buffer (t : ConsLines) : t.lines.length < t.buffer.length + 1 := by
  have h : ∀ ls : List (List u8), ls.length ≤ (unlines ls).length := by
    intro ls
    induction ls with
    | nil => exact le_rfl
    | cons l ls ih =>
      rw [unlines_cons, List.length_append, List.length_cons, List.length_cons]
      omega
  have := h t.lines
  unfold ConsLines.buffer
  rw [List.length_append]
  omega

theorem cstr_buffer (t : ConsLines) : cstr t.buffer = unlines t.lines :=
  cstr_front (zero_notMem_unlines t.isLine)

/-- **The text that `cons_grepbuf` leaves.** -/
theorem consGrepbuf_eq (g : Grep) (t : ConsLines) :
    consGrepbuf g t.buffer (unlines t.lines).length =
      some (if g.grepstr = none then unlines t.lines
        else if g.grepline = -1 then g.passed t.lines else g.selected t.lines 0) := by
  by_cases hnull : g.grepstr = none
  · rw [consGrepbuf, if_pos hnull, if_pos hnull, cstr_buffer]
  rw [consGrepbuf, if_neg hnull, if_neg hnull]
  have hfits := t.fits
  have hfuel := length_lt_buffer t
  unfold ConsLines.buffer at hfuel ⊢
  by_cases hsel : g.grepline = -1
  · obtain ⟨junk, len, heq⟩ : ∃ junk len, grepLoop g ((unlines t.lines ++ [0]).length + 1) []
        (unlines t.lines ++ [0]) (unlines t.lines).length 0 =
          some ([] ++ (g.passed t.lines ++ 0 :: junk), len) :=
      grepLoop_passed hsel t.isLine le_rfl (by omega) hfuel
    rw [if_pos hsel, heq, Option.map_some]
    dsimp only
    rw [List.nil_append, cstr_front (zero_notMem_passed t.isLine)]
  · obtain ⟨junk, len, heq⟩ : ∃ junk len, grepLoop g ((unlines t.lines ++ [0]).length + 1) []
        (unlines t.lines ++ [0]) (unlines t.lines).length ((0 : ℕ) : ℤ) =
          some (g.selected t.lines 0 ++ 0 :: junk, len) :=
      grepLoop_selected hsel t.isLine le_rfl (by omega) hfuel
    rw [Int.natCast_zero] at heq
    rw [if_neg hsel, heq, Option.map_some]
    dsimp only
    rw [cstr_front (zero_notMem_selected t.isLine)]

/-- **The text that `cons_render` prints.** -/
theorem consRender_eq (g : Grep) (t : ConsLines) :
    consRender g t.buffer = some (unlines (g.printed t.lines 0)) := by
  have hprint : renderLoop g (t.buffer.length + 1) (unlines t.lines ++ [0]) ((0 : ℕ) : ℤ) =
      some (unlines (g.printed t.lines 0)) := renderLoop_printed t.isLine (length_lt_buffer t)
  unfold consRender
  split_ifs with hempty hall
  · have hnil : t.lines = [] := by
      unfold ConsLines.buffer at hempty
      have hline := t.isLine
      cases hls : t.lines with
      | nil => rfl
      | cons l ls =>
        rw [hls, unlines_cons, List.append_assoc] at hempty
        exact absurd hempty (head_front (hline l (hls ▸ List.mem_cons_self)))
    rw [hnil]
    unfold Grep.printed
    split_ifs <;> rfl
  · have hhit : ∀ l ∈ t.lines, g.hit l = true := fun l _ => by rw [Grep.hit, hall.1]
    rw [Grep.printed, if_pos hall.2, List.filter_eq_self.mpr hhit, cstr_buffer]
  · exact hprint

/-- **When the filters agree**: for every buffer of lines, grep string,
negation and selected line, `cons_grepbuf` leaves the text that
`cons_render` prints if and only if an empty line that passes has only
lines that pass behind it, or the line that is selected does not exist, or,
without a string, no line is selected or the only one. -/
theorem grepbuf_eq_render_iff (g : Grep) (t : ConsLines) :
    (∃ text, consGrepbuf g t.buffer (unlines t.lines).length = some text ∧
      consRender g t.buffer = some text) ↔ g.Agrees t.lines := by
  rw [consGrepbuf_eq, consRender_eq]
  have hsame : ∀ a b : List u8, (∃ text, some a = some text ∧ some b = some text) ↔ a = b := by
    intro a b
    constructor
    · rintro ⟨text, ha, hb⟩
      exact Option.some.inj (ha.trans hb.symm)
    · rintro rfl
      exact ⟨a, rfl, rfl⟩
  rw [hsame, Grep.Agrees]
  by_cases hnull : g.grepstr = none
  · rw [if_pos hnull, if_pos hnull]
    exact printed_eq_iff hnull
  · rw [if_neg hnull, if_neg hnull, Grep.printed]
    split_ifs
    · exact passed_eq_iff
    · exact selected_eq_iff

/-- **Behind an empty line**: `!x` of an empty line and one with an `x`. -/
theorem empty_line_ends_filter :
    let g : Grep := ⟨some ⟨[120], by decide⟩, true, -1⟩
    let t : ConsLines := ⟨[[], [120]], by unfold IsLine; decide, by decide⟩
    ¬∃ text, consGrepbuf g t.buffer (unlines t.lines).length = some text ∧
      consRender g t.buffer = some text := by
  rintro g t ⟨text, hleft, hprinted⟩
  have hbuf : consGrepbuf g t.buffer (unlines t.lines).length = some [10, 120, 10] := by decide
  have hrender : consRender g t.buffer = some [10] := by decide
  have hsame := (hbuf.symm.trans hleft).trans (hprinted.symm.trans hrender)
  exact absurd hsame (by decide)

end Radare
