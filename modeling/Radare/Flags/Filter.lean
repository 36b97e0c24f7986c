import Mathlib.Data.List.TakeWhile
import Radare.Flags.Model
import Radare.Model.Text
/-!
# Flag names filtered in place

`flag_filter_name` deletes the characters of a name that a flag must not
have, by copying the rest of it down over each of them, and cuts the name
behind the characters it has looked at. It works in the memory of its
argument, on the string and what lies behind it. What the turns that are
left do is said of a memory in three parts: the characters kept so far, the
rest of the string, and what is behind its NUL (`filterLoop_eq`).
-/

namespace Radare

variable {c : u8} {pre rest s behind : List u8} {n : ℕ}

/-- `MAX_FLAG_LEN`. -/
def maxFlagLen : ℕ := 20

/-- `str_cpy` within one memory, for at most so many characters. -/
def strCpyWithin : ℕ → List u8 → ℕ → ℕ → List u8
  | 0, mem, _, _ => mem
  | n + 1, mem, dst, org =>
    let c := mem.getD org 0
    if c ≠ 0 then strCpyWithin n (mem.set dst c) (dst + 1) (org + 1) else mem.set dst 0

/-- The loop of `flag_filter_name` at `name`, with `MAX_FLAG_LEN + 1 - i`
turns left. A character deleted leaves `name` where it is: it is stepped
back, and on again by the loop. -/
def filterLoop : ℕ → ℕ → List u8 → List u8
  | 0, name, mem => if mem.getD name 0 = 0 then mem else mem.set name 0
  | n + 1, name, mem =>
    if mem.getD name 0 = 0 then mem
    else if !flagIsValidChar (mem.getD name 0) then
      filterLoop n name (strCpyWithin mem.length mem name (name + 1))
    else filterLoop n (name + 1) mem

/-- `flag_filter_name`: the memory after, and the value returned. -/
def flagFilterName (mem : List u8) : List u8 × ℕ :=
  let oname := (mem.takeWhile (· = 32)).length
  let mem := filterLoop (maxFlagLen + 1) oname mem
  (mem, if flagIsValidName (cstr (mem.drop oname)) then 1 else 0)

/-! ## One turn -/

/-- **A string copied down by one** loses the character in front of it. The
NUL it had stays where it was. -/
theorem strCpyWithin_down (hrest : 0 ∉ rest) (hn : rest.length < n) :
    strCpyWithin n (pre ++ c :: (rest ++ 0 :: behind)) pre.length (pre.length + 1) =
      pre ++ (rest ++ 0 :: 0 :: behind) := by
  have hsplit : ∀ (d : u8) (l : List u8), pre ++ c :: d :: l = (pre ++ [c]) ++ d :: l := by
    intro d l
    rw [List.append_assoc, List.singleton_append]
  have hlen : (pre ++ [c]).length = pre.length + 1 := by
    rw [List.length_append, List.length_singleton]
  induction rest generalizing pre c n with
  | nil =>
    obtain ⟨n, rfl⟩ : ∃ k, n = k + 1 := ⟨n - 1, by omega⟩
    rw [strCpyWithin, List.nil_append, hsplit, ← hlen, getD_front]
    rw [if_neg (not_not_intro rfl), ← hsplit, set_front]
    rfl
  | cons d rest ih =>
    obtain ⟨n, rfl⟩ : ∃ k, n = k + 1 := ⟨n - 1, by omega⟩
    have hd : d ≠ 0 := Ne.symm (List.ne_of_not_mem_cons hrest)
    rw [List.length_cons] at hn
    rw [strCpyWithin, List.cons_append, hsplit, ← hlen, getD_front]
    rw [if_pos hd, ← hsplit, set_front]
    have hstep : strCpyWithin n (pre ++ [d] ++ d :: (rest ++ 0 :: behind)) _ _ = _ :=
      ih (List.not_mem_of_not_mem_cons hrest) (by omega) (by intro e l; simp) (by simp)
    rw [List.length_append, List.length_singleton] at hstep
    rw [hlen]
    simpa using hstep

/-! ## The loop -/

/-- **What the turns left make of the rest of a name**: the valid characters
of so many of it, and the NUL behind them. -/
theorem filterLoop_eq (hrest : 0 ∉ rest) :
    ∃ behind', filterLoop n pre.length (pre ++ (rest ++ 0 :: behind)) =
      pre ++ ((rest.take n).filter flagIsValidChar ++ 0 :: behind') := by
  induction n generalizing pre rest behind with
  | zero =>
    cases rest with
    | nil => exact ⟨behind, by rw [filterLoop, List.nil_append, getD_front, if_pos rfl]; rfl⟩
    | cons c rest =>
      have hc : c ≠ 0 := Ne.symm (List.ne_of_not_mem_cons hrest)
      refine ⟨rest ++ 0 :: behind, ?_⟩
      rw [filterLoop, List.cons_append, getD_front, if_neg hc, set_front]
      rfl
  | succ n ih =>
    cases rest with
    | nil => exact ⟨behind, by rw [filterLoop, List.nil_append, getD_front, if_pos rfl]; rfl⟩
    | cons c rest =>
      have hc : c ≠ 0 := Ne.symm (List.ne_of_not_mem_cons hrest)
      replace hrest := List.not_mem_of_not_mem_cons hrest
      rw [filterLoop, List.cons_append, getD_front, if_neg hc, List.take_succ_cons]
      cases hvalid : flagIsValidChar c with
      | false =>
        -- the rest comes down, and the loop stays where it is
        have hlen : rest.length < (pre ++ c :: (rest ++ 0 :: behind)).length := by
          rw [List.length_append, List.length_cons, List.length_append]
          omega
        rw [Bool.not_false, if_pos rfl, strCpyWithin_down hrest hlen,
          List.filter_cons_of_neg (by rw [hvalid]; exact Bool.false_ne_true)]
        exact ih hrest
      | true =>
        obtain ⟨behind', hloop⟩ : ∃ behind',
            filterLoop n (pre ++ [c]).length (pre ++ [c] ++ (rest ++ 0 :: behind)) = _ := ih hrest
        refine ⟨behind', ?_⟩
        rw [Bool.not_true, if_neg Bool.false_ne_true, List.filter_cons_of_pos hvalid]
        rw [List.length_append, List.length_singleton] at hloop
        simpa using hloop

/-- A name that is short enough and valid is left alone. -/
theorem filterLoop_self (hrest : ∀ c ∈ rest, c ≠ 0 ∧ flagIsValidChar c = true)
    (hn : rest.length ≤ n) :
    filterLoop n pre.length (pre ++ (rest ++ 0 :: behind)) = pre ++ (rest ++ 0 :: behind) := by
  induction rest generalizing pre n with
  | nil =>
    cases n <;> rw [filterLoop, List.nil_append, getD_front, if_pos rfl]
  | cons c rest ih =>
    rw [List.length_cons] at hn
    obtain ⟨n, rfl⟩ : ∃ k, n = k + 1 := ⟨n - 1, by omega⟩
    obtain ⟨⟨hc, hvalid⟩, hrest⟩ := List.forall_mem_cons.mp hrest
    rw [filterLoop, List.cons_append, getD_front, if_neg hc, hvalid, Bool.not_true,
      if_neg Bool.false_ne_true]
    have hstep : filterLoop n (pre ++ [c]).length (pre ++ [c] ++ (rest ++ 0 :: behind)) = _ :=
      ih hrest (by omega)
    rw [List.length_append, List.length_singleton] at hstep
    simpa using hstep

/-! ## The name -/

variable {blanks kept : List u8}

/-- The first blanks of a text. -/
theorem takeWhile_leading_blanks (hblanks : ∀ c ∈ blanks, c = 32) (hrest : ∀ c ∈ rest.head?, c ≠ 32) :
    (blanks ++ rest).takeWhile (· = 32) = blanks := by
  rw [List.takeWhile_append_of_pos fun c hc => decide_eq_true (hblanks c hc)]
  cases rest with
  | nil => exact List.append_nil blanks
  | cons c rest =>
    rw [List.takeWhile_cons_of_neg (by simpa using hrest c rfl), List.append_nil]

/-- A character that is not a blank is in front of the NUL, or the NUL is. -/
theorem head_ne_blank {text : List u8} (h : ∀ c ∈ text.head?, c ≠ 32) :
    ∀ c ∈ (text ++ 0 :: behind).head?, c ≠ 32 := by
  cases text with
  | nil =>
    rintro c hc rfl
    exact absurd (Option.some.inj hc) (by decide)
  | cons c text => exact h

/-- **A call that leaves valid characters** behind the first blanks. -/
theorem flagFilterName_eq {mem : List u8} (hkept : ∀ c ∈ kept, c ≠ 0 ∧ flagIsValidChar c = true)
    (hfront : mem.takeWhile (· = 32) = blanks)
    (hmem : filterLoop 21 blanks.length mem = blanks ++ (kept ++ 0 :: behind)) :
    flagFilterName mem = (blanks ++ (kept ++ 0 :: behind), if kept = [] then 0 else 1) := by
  have hcstr : cstr (kept ++ 0 :: behind) = kept := cstr_front fun h => (hkept 0 h).1 rfl
  have hall : kept.all flagIsValidChar = true := List.all_eq_true.mpr fun c hc => (hkept c hc).2
  have hvalid : flagIsValidName kept = decide (kept ≠ []) := by
    unfold flagIsValidName
    simp only [hall, and_true]
  unfold flagFilterName maxFlagLen
  rw [hfront]
  dsimp only
  rw [hmem, List.drop_left, hcstr, hvalid]
  by_cases hnil : kept = []
  · rw [if_pos hnil, if_neg (by simpa using hnil)]
  · rw [if_neg hnil, if_pos (by simpa using hnil)]

/-- **What `flag_filter_name` leaves**: behind the first blanks of the name
the valid ones of the 21 characters there, in order, and 1 if there are any;
a second call changes nothing. -/
theorem flagFilterName_spec (s behind : List u8) (hs : 0 ∉ s) :
    ∃ behind',
      flagFilterName (s ++ 0 :: behind) =
        (s.takeWhile (· = 32) ++
            (((s.dropWhile (· = 32)).take 21).filter flagIsValidChar ++ 0 :: behind'),
          if ((s.dropWhile (· = 32)).take 21).filter flagIsValidChar = [] then 0 else 1) ∧
      flagFilterName (flagFilterName (s ++ 0 :: behind)).1 = flagFilterName (s ++ 0 :: behind) := by
  have hblanks : ∀ c ∈ s.takeWhile (· = 32), c = 32 := fun c hc => by
    simpa using List.mem_takeWhile_imp hc
  have hhead : ∀ c ∈ (s.dropWhile (· = 32)).head?, c ≠ 32 := by
    intro c hc
    have hnot := List.head?_dropWhile_not (fun c : u8 => decide (c = 32)) s
    rw [hc] at hnot
    simpa using hnot
  have hsplit : s = s.takeWhile (· = 32) ++ s.dropWhile (· = 32) :=
    List.takeWhile_append_dropWhile.symm
  generalize s.takeWhile (· = 32) = blanks at hblanks hsplit ⊢
  generalize s.dropWhile (· = 32) = text at hhead hsplit ⊢
  subst hsplit
  have htext : 0 ∉ text := fun h => hs (List.mem_append_right _ h)
  obtain ⟨behind', hloop⟩ : ∃ behind',
      filterLoop 21 blanks.length (blanks ++ (text ++ 0 :: behind)) = _ := filterLoop_eq htext
  have hlen : ((text.take 21).filter flagIsValidChar).length ≤ 21 :=
    (List.length_filter_le _ _).trans (List.length_take_le _ _)
  have hkept : ∀ c ∈ (text.take 21).filter flagIsValidChar, c ≠ 0 ∧ flagIsValidChar c = true := by
    intro c hc
    obtain ⟨hmem, hvalid⟩ := List.mem_filter.mp hc
    exact ⟨fun h => htext (h ▸ List.mem_of_mem_take hmem), hvalid⟩
  generalize (text.take 21).filter flagIsValidChar = kept at hloop hlen hkept ⊢
  have hkept32 : ∀ c ∈ kept.head?, c ≠ 32 := by
    rintro c hc rfl
    exact absurd (hkept 32 (List.mem_of_mem_head? hc)).2 (by decide)
  have hfirst : flagFilterName (blanks ++ text ++ 0 :: behind) =
      (blanks ++ (kept ++ 0 :: behind'), if kept = [] then 0 else 1) := by
    rw [List.append_assoc]
    exact flagFilterName_eq hkept (takeWhile_leading_blanks hblanks (head_ne_blank hhead)) hloop
  refine ⟨behind', hfirst, ?_⟩
  rw [hfirst]
  exact flagFilterName_eq hkept (takeWhile_leading_blanks hblanks (head_ne_blank hkept32))
    (filterLoop_self hkept hlen)

/-- Blanks in front, and a slash inside. -/
theorem flagFilterName_spec_blanks :
    ∃ behind',
      flagFilterName ([32, 32, 97, 47, 98] ++ 0 :: []) = ([32, 32, 97, 98, 0] ++ behind', 1) := by
  obtain ⟨behind', hfirst, -⟩ := flagFilterName_spec [32, 32, 97, 47, 98] [] (by decide)
  exact ⟨behind', hfirst⟩

end Radare
