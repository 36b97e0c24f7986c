import Radare.Cons.Model
import Radare.Common.Marks
import Radare.Config.Model
/-!
# A pattern replaced in a string

`strsub` goes through its string from left to right and puts the replacement
down wherever the pattern matches. Whether it does is told by a sum, that of
the differences of the characters, and in the memory at the place, which may
be behind the string: a `?` matches the NUL, and differences that cancel are
none. The buffer grows by what the pattern needs, and the replacement is
copied to it without a look at its size.

Where none of this is met, the string is the right one (`strsub_iff`).
-/

namespace Radare

open Common

/-! ## The code -/

/-- The `while` of `RESIZE_MALLOCED_BUFFER`, by steps of 4096. -/
def resizeLoop (cind room : ℕ) : ℕ → ℕ → ℕ
  | 0, csize => csize
  | fuel + 1, csize =>
    if csize ≤ cind + room then resizeLoop cind room fuel (csize + 4096) else csize

/-- `RESIZE_MALLOCED_BUFFER`: the size of the buffer then. -/
def resizeMalloced (cind room csize : ℕ) : ℕ := resizeLoop cind room (cind + room + 1) csize

/-- `strsub_memcmp`, from a place of the memory on. -/
def strsubMemcmp : List u8 → List u8 → UInt32 → Option UInt32
  | _, [], res => some res
  | mem, c :: pat, res =>
    if c = 63 then strsubMemcmp mem.tail pat res
    else mem.head?.bind fun s => strsubMemcmp mem.tail pat (res + (charInt s - charInt c))

/-- `!strsub_memcmp`: what the code takes for a match. -/
def memcmpMatches (pat mem : List u8) : Option Bool :=
  (strsubMemcmp mem pat 0).map fun res => decide (res = 0)

/-- The text put down at the end of what is in a buffer, and inside of it. -/
def putDown (temp text : List u8) (size : ℕ) : Option (List u8) :=
  if temp.length + text.length ≤ size then some (temp ++ text) else none

/-- The loop of `strsub`, with what is in `temp`. A turn goes on by one
character at least, if the pattern has one. -/
def strsubLoop (mem pat rep : List u8) (glob : Bool) :
    ℕ → ℕ → Bool → List u8 → ℕ → Option (Option (List u8))
  | 0, _, _, _, _ => none
  | fuel + 1, i, repl, temp, tempsize =>
    mem[i]?.bind fun c =>
      if c = 0 then
        -- the buffer is there once it has had a size
        if tempsize = 0 then some none
        else (putDown temp [0] tempsize).map fun _ => some temp
      else (if repl then memcmpMatches pat (mem.drop i) else some false).bind fun hit =>
        if hit then
          let tempsize := resizeMalloced temp.length pat.length tempsize
          (putDown temp rep tempsize).bind fun temp =>
            strsubLoop mem pat rep glob fuel (i + pat.length) glob temp tempsize
        else
          let tempsize := resizeMalloced temp.length 1 tempsize
          (putDown temp [c] tempsize).bind fun temp =>
            strsubLoop mem pat rep glob fuel (i + 1) repl temp tempsize

/-- `strsub`, of a string with more memory behind it: the string returned, or
none of them, and no result for what is outside of memory. -/
def strsub (string pat rep : List u8) (glob : Bool) (behind : List u8) :
    Option (Option (List u8)) :=
  let mem := string ++ 0 :: behind
  strsubLoop mem pat rep glob (mem.length + 1) 0 true [] 0

/-! ## What it is for -/

/-- The pattern matches in front of a string. -/
def patMatches : List u8 → List u8 → Bool
  | [], _ => true
  | _ :: _, [] => false
  | c :: pat, s :: string => (c = 63 || c = s) && patMatches pat string

/-- The string with a mark for each match. -/
def patMarked (pat string : List u8) : List (Option u8) :=
  marked (patMatches pat) pat.length 0 string

/-- Each match is replaced, and the buffer is not left. -/
def Substitutes (string pat rep : CText) (behind : List u8) : Prop :=
  strsub string.1 pat.1 rep.1 true behind = some (some (rendered rep.1 (patMarked pat.1 string.1)))

/-! ## When it does it -/

/-- The marks by what the code takes for a match. -/
def memcmpMarked (pat mem : List u8) : Option (List (Option u8)) :=
  searched (fun c => decide (c = 0)) (memcmpMatches pat) pat.length 0 mem

/-- At each place that the scan comes to, the sum is over memory, and zero
just where the pattern matches. -/
def SumsAgree (pat string behind : List u8) : Prop :=
  ∀ l ∈ places (patMatches pat) pat.length 0 string,
    memcmpMatches pat (l ++ 0 :: behind) = some (patMatches pat l)

/-- The replacements, and the NUL, are in the buffer, whose size is got for
the pattern: with `room` for it, and for a replacement of length `rep`. -/
def RepsFit (room rep : ℕ) : List (Option u8) → ℕ → ℕ → Prop
  | [], len, size => len < size
  | none :: p, len, size =>
    len + rep ≤ resizeMalloced len room size ∧
      RepsFit room rep p (len + rep) (resizeMalloced len room size)
  | some _ :: p, len, size => RepsFit room rep p (len + 1) (resizeMalloced len 1 size)

/-- What makes the result right: with the right sums the replacements fit, and
with others the text is the same nevertheless. -/
def SubstitutesRight (string pat rep behind : List u8) : Prop :=
  SumsAgree pat string behind ∧ RepsFit pat.length rep.length (patMarked pat string) 0 0 ∨
    ¬SumsAgree pat string behind ∧ ∃ p, memcmpMarked pat (string ++ 0 :: behind) = some p ∧
      RepsFit pat.length rep.length p 0 0 ∧ rendered rep p = rendered rep (patMarked pat string)

variable {mem pat rep temp out l string behind : List u8} {p : List (Option u8)}
variable {cind room csize fuel len size i : ℕ}

/-! ## The buffer -/

theorem lt_resizeLoop (h : cind + room < csize + fuel) :
    cind + room < resizeLoop cind room fuel csize := by
  induction fuel generalizing csize with
  | zero => exact h
  | succ fuel ih =>
    rw [resizeLoop]
    split_ifs with hle
    · exact ih (by omega)
    · omega

theorem lt_resizeMalloced (cind room csize : ℕ) :
    cind + room < resizeMalloced cind room csize :=
  lt_resizeLoop (by omega)

/-- A replacement that is no longer than the pattern fits. -/
theorem repsFit_of_le (hle : rep.length ≤ room) (hstart : p ≠ [] ∨ len < size) :
    RepsFit room rep.length p len size := by
  induction p generalizing len size with
  | nil => exact hstart.resolve_left (fun h => h rfl)
  | cons o p ih =>
    cases o with
    | none =>
      have hlt := lt_resizeMalloced len room size
      exact ⟨by omega, ih (Or.inr (by omega))⟩
    | some c => exact ih (Or.inr (lt_resizeMalloced len 1 size))

/-! ## The loop -/

theorem memcmpMarked_end (hi : i < mem.length) (hc : mem[i] = 0) :
    memcmpMarked pat (mem.drop i) = some [] := by
  unfold memcmpMarked
  rw [List.drop_eq_getElem_cons hi, searched, if_pos (decide_eq_true hc)]

theorem memcmpMarked_outside (hi : mem.length ≤ i) : memcmpMarked pat (mem.drop i) = none := by
  unfold memcmpMarked
  rw [List.drop_eq_nil_of_le hi, searched]

/-- One character of the scan. -/
theorem memcmpMarked_turn (hpat : pat ≠ []) (hi : i < mem.length) (hc : mem[i] ≠ 0) :
    memcmpMarked pat (mem.drop i) = (memcmpMatches pat (mem.drop i)).bind fun hit =>
      if hit then (memcmpMarked pat (mem.drop (i + pat.length))).map (none :: ·)
      else (memcmpMarked pat (mem.drop (i + 1))).map (some mem[i] :: ·) := by
  have hpos : 0 < pat.length := List.length_pos_iff.mpr hpat
  have hskip : (mem.drop (i + 1)).drop (pat.length - 1) = mem.drop (i + pat.length) := by
    rw [List.drop_drop]
    congr 1
    omega
  have hstop : ¬decide (mem[i] = 0) = true := by simpa using hc
  unfold memcmpMarked
  rw [List.drop_eq_getElem_cons hi, searched, if_neg hstop, searched_drop, hskip]

/-- The marks that begin with one of them. -/
theorem exists_map_cons {o : Option u8} {m : Option (List (Option u8))}
    {P : List (Option u8) → Prop} :
    (∃ p, m.map (o :: ·) = some p ∧ P p) ↔ ∃ p, m = some p ∧ P (o :: p) := by
  constructor
  · rintro ⟨p, hp, h⟩
    obtain ⟨q, hq, rfl⟩ := Option.map_eq_some_iff.mp hp
    exact ⟨q, hq, h⟩
  · rintro ⟨p, rfl, h⟩
    exact ⟨o :: p, rfl, h⟩

/-- The end of the string: the buffer is returned with its NUL. -/
theorem strsubLoop_end_iff :
    (if size = 0 then some none else (putDown temp [0] size).map fun _ => some temp) =
      some (some out) ↔ temp.length < size ∧ temp = out := by
  unfold putDown
  rw [List.length_singleton]
  split_ifs with hsize hfit
  · exact iff_of_false (by simp) fun h => by omega
  · rw [Option.map_some, Option.some.injEq, Option.some.injEq]
    exact (and_iff_right hfit).symm
  · exact iff_of_false (by simp) fun h => hfit h.1

/-- **The loop** puts down what the marks of the code say, as long as it
fits. -/
theorem strsubLoop_iff (hpat : pat ≠ []) (hfuel : mem.length - i < fuel) :
    strsubLoop mem pat rep true fuel i true temp size = some (some out) ↔
      ∃ p, memcmpMarked pat (mem.drop i) = some p ∧
        RepsFit pat.length rep.length p temp.length size ∧ temp ++ rendered rep p = out := by
  have hpos : 0 < pat.length := List.length_pos_iff.mpr hpat
  induction fuel generalizing i temp size with
  | zero => exact absurd hfuel (Nat.not_lt_zero _)
  | succ fuel ih =>
    rw [strsubLoop]
    rcases Nat.lt_or_ge i mem.length with hi | hi
    · rw [List.getElem?_eq_getElem hi, Option.bind_some]
      by_cases hc : mem[i] = 0
      · rw [if_pos hc, memcmpMarked_end hi hc, strsubLoop_end_iff]
        constructor
        · rintro ⟨hfit, rfl⟩
          exact ⟨[], rfl, hfit, List.append_nil temp⟩
        · rintro ⟨p, hp, hfit, rfl⟩
          rw [← Option.some.inj hp] at hfit ⊢
          exact ⟨hfit, (List.append_nil temp).symm⟩
      · rw [if_neg hc, memcmpMarked_turn hpat hi hc, if_pos rfl]
        cases memcmpMatches pat (mem.drop i) with
        | none => exact iff_of_false (by simp) (by simp)
        | some hit =>
          rw [Option.bind_some, Option.bind_some]
          dsimp only [putDown]
          have hnext : mem.length - (i + 1) < fuel := by omega
          have hbehind : mem.length - (i + pat.length) < fuel := by omega
          by_cases hhit : hit = true
          · rw [if_pos hhit, if_pos hhit, exists_map_cons]
            by_cases hfit : temp.length + rep.length ≤ resizeMalloced temp.length pat.length size
            · rw [if_pos hfit, Option.bind_some]
              refine (ih hbehind).trans ?_
              simp only [RepsFit, rendered, hfit, true_and, List.length_append, List.append_assoc]
            · rw [if_neg hfit]
              refine iff_of_false (by simp) ?_
              rintro ⟨p, -, h, -⟩
              exact hfit h.1
          · have hone : temp.length + [mem[i]].length ≤ resizeMalloced temp.length 1 size :=
              (lt_resizeMalloced temp.length 1 size).le
            rw [if_neg hhit, if_neg hhit, exists_map_cons, if_pos hone, Option.bind_some]
            refine (ih hnext).trans ?_
            simp only [RepsFit, rendered, List.length_append, List.length_singleton,
              List.append_assoc, List.cons_append, List.nil_append]
    · rw [List.getElem?_eq_none hi, memcmpMarked_outside hi]
      exact iff_of_false (by simp) (by simp)

theorem strsub_iff_marked (hpat : pat ≠ []) :
    strsub string pat rep true behind = some (some out) ↔
      ∃ p, memcmpMarked pat (string ++ 0 :: behind) = some p ∧
        RepsFit pat.length rep.length p 0 0 ∧ rendered rep p = out :=
  strsubLoop_iff hpat (by omega)

/-! ## The marks -/

theorem length_le_of_patMatches (h : patMatches pat l = true) : pat.length ≤ l.length := by
  induction pat generalizing l with
  | nil => exact Nat.zero_le _
  | cons c pat ih =>
    cases l with
    | nil => exact absurd h Bool.false_ne_true
    | cons s l => exact Nat.succ_le_succ (ih (Bool.and_elim_right h))

/-- The marks are the right ones where the sums are. -/
theorem memcmpMarked_iff (hstring : 0 ∉ string) :
    memcmpMarked pat (string ++ 0 :: behind) = some (patMarked pat string) ↔
      SumsAgree pat string behind := by
  refine searched_eq_marked_iff (decide_eq_true rfl) (fun c hc => ?_)
    (fun l => length_le_of_patMatches) (Nat.zero_le _)
  rw [decide_eq_false_iff_not]
  rintro rfl
  exact hstring hc

theorem substitutes_iff_marked {string pat rep : CText} (hpat : pat.1 ≠ []) :
    Substitutes string pat rep behind ↔
      ∃ p, memcmpMarked pat.1 (string.1 ++ 0 :: behind) = some p ∧
        RepsFit pat.1.length rep.1.length p 0 0 ∧
          rendered rep.1 p = rendered rep.1 (patMarked pat.1 string.1) :=
  strsub_iff_marked hpat

/-! ## The result -/

theorem substitutes_iff {string pat rep : CText} (hpat : pat.1 ≠ []) :
    Substitutes string pat rep behind ↔ SubstitutesRight string.1 pat.1 rep.1 behind := by
  rw [substitutes_iff_marked hpat, SubstitutesRight]
  by_cases hsums : SumsAgree pat.1 string.1 behind
  · have hmarked := (memcmpMarked_iff string.2).mpr hsums
    rw [and_iff_right hsums, or_iff_left fun h => h.1 hsums]
    constructor
    · rintro ⟨p, hp, hfit, -⟩
      rwa [Option.some.inj (hmarked.symm.trans hp)]
    · intro hfit
      exact ⟨_, hmarked, hfit, rfl⟩
  · rw [and_iff_right hsums, or_iff_right fun h => hsums h.1]

/-- **Of a string and a pattern alone**: every replacement that is no longer
than the pattern comes out right if and only if there is a string, and the
sums are right. -/
theorem substitutes_short_iff {string pat : CText} (hpat : pat.1 ≠ []) :
    (∀ rep : CText, rep.1.length ≤ pat.1.length → Substitutes string pat rep behind) ↔
      string.1 ≠ [] ∧ SumsAgree pat.1 string.1 behind := by
  have hpos : 0 < pat.1.length := List.length_pos_iff.mpr hpat
  constructor
  · intro h
    -- two replacements are enough to tell the marks
    obtain ⟨p, hp, hfit, ha⟩ := (substitutes_iff_marked hpat).mp (h ⟨[1], by decide⟩ hpos)
    obtain ⟨q, hq, -, hb⟩ := (substitutes_iff_marked hpat).mp (h ⟨[2], by decide⟩ hpos)
    rw [← Option.some.inj (hp.symm.trans hq)] at hb
    have hmarks := rendered_inj (by decide) ha hb
    rw [hmarks] at hp hfit
    refine ⟨?_, (memcmpMarked_iff string.2).mp hp⟩
    intro hempty
    rw [hempty] at hfit
    exact absurd hfit (Nat.lt_irrefl 0)
  · rintro ⟨hne, hsums⟩ rep hle
    refine (substitutes_iff hpat).mpr (Or.inl ⟨hsums, repsFit_of_le hle (Or.inl ?_)⟩)
    obtain ⟨c, l, hl⟩ := List.exists_cons_of_ne_nil hne
    rw [hl, patMarked, marked]
    split_ifs
    · exact List.cons_ne_nil _ _
    · exact List.cons_ne_nil _ _

/-- **When a pattern is replaced**: the string returned is the right one, and
got inside of its buffer, if and only if the sums are right and the
replacements fit, or by other sums the text is the same; and with every
replacement no longer than the pattern, if and only if there is a string and
the sums are right. -/
theorem strsub_iff (string pat rep : CText) (behind : List u8) (hpat : pat.1 ≠ []) :
    (Substitutes string pat rep behind ↔ SubstitutesRight string.1 pat.1 rep.1 behind) ∧
      ((∀ short : CText, short.1.length ≤ pat.1.length → Substitutes string pat short behind) ↔
        string.1 ≠ [] ∧ SumsAgree pat.1 string.1 behind) :=
  ⟨substitutes_iff hpat, substitutes_short_iff hpat⟩

/-- In `abcab` each `ab` becomes an `x`. -/
theorem strsub_two_matches :
    Substitutes ⟨[97, 98, 99, 97, 98], by decide⟩ ⟨[97, 98], by decide⟩ ⟨[120], by decide⟩ [] :=
  (strsub_iff ⟨[97, 98, 99, 97, 98], by decide⟩ ⟨[97, 98], by decide⟩ ⟨[120], by decide⟩ []
    (by decide)).2.mpr ⟨by decide, by unfold SumsAgree; decide⟩ ⟨[120], by decide⟩ (by decide)

/-- In `bc` no `ad` is, but what the one character is more the other is less. -/
theorem strsub_cancelled :
    ¬Substitutes ⟨[98, 99], by decide⟩ ⟨[97, 100], by decide⟩ ⟨[120], by decide⟩ [] := by
  unfold Substitutes
  decide

end Radare
