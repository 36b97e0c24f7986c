import Mathlib.Data.List.MinMax
import Radare.Flags.Model
/-!
# The flag an address is in

`flag_get_here_filter` searches the table for the nearest flag below an
address whose name has a text in it, and keeps the answer for all addresses
up to the next such flag. It finds no flag at zero (`hereSearch_fst`). The
answer is kept for any text and any table: the text is not asked for again, no
change of the table drops it, and a search that finds nothing empties it and
leaves its addresses. In a run that asks for kept addresses only with the text
of the last search, while the flags between are as they were, and with no search
that failed since, and that searches only where the nearest flag is not the one
at zero, every answer is the one of the nearest flag (`here_transparent`).
-/

namespace Radare

variable {flags flags' : List FlagT} {at_ at' ret next : ut64} {str : List u8} {f g : FlagT}
  {found : Option FlagT}

/-- The flags a search passes over: those without the text, and those with
`end` in their name. -/
def passes (str : List u8) (f : FlagT) : Bool :=
  (str ≠ [] ∧ ¬str <:+: f.name) ∨ [101, 110, 100] <:+: f.name

/-- The loop of `flag_get_here_filter`: the flag found, and where the next
one is. -/
def searchLoop (at_ : ut64) (str : List u8) :
    List FlagT → ut64 → ut64 → Option FlagT → Option FlagT × ut64
  | [], _, next, found => (found, next)
  | f :: flags, ret, next, found =>
    if passes str f then searchLoop at_ str flags ret next found
    else if f.offset < next ∧ f.offset > at_ then searchLoop at_ str flags ret f.offset found
    else if at_ ≥ f.offset ∧ f.offset > ret then searchLoop at_ str flags f.offset next (some f)
    else searchLoop at_ str flags ret next found

/-- The search, from `ret = 0` and `nextflag = U64_MAX`. -/
def hereSearch (flags : List FlagT) (at_ : ut64) (str : List u8) : Option FlagT × ut64 :=
  searchLoop at_ str flags 0 (-1) none

/-- The static variables: `sec_start`, `sec_end` and `sec_str`. -/
structure HereCache where
  start : ut64
  end_ : ut64
  str : List u8
deriving DecidableEq

/-- `flag_get_here_filter`: the string returned. -/
def flagGetHereFilter (cache : HereCache) (flags : List FlagT) (at_ : ut64) (str : List u8) :
    HereCache × List u8 :=
  if at_ ≥ cache.start ∧ at_ < cache.end_ then (cache, cache.str)
  else
    match hereSearch flags at_ str with
    | (none, _) => ({ cache with str := [] }, [])
    | (some f, nextflag) =>
      let secStr := f.name.drop str.length
      (⟨f.offset, nextflag, secStr⟩, secStr)

/-- The nearest flag with a text, at or below an address: the oldest of those
furthest up. -/
def nearest (flags : List FlagT) (at_ : ut64) (str : List u8) : Option FlagT :=
  (flags.filter fun f => !passes str f ∧ f.offset ≤ at_).argmax FlagT.offset

/-- Its string. -/
def hereUncached (flags : List FlagT) (at_ : ut64) (str : List u8) : List u8 :=
  match nearest flags at_ str with
  | none => []
  | some f => f.name.drop str.length

/-! ## The nearest flag -/

section Argmax

variable {α β : Type*} [LinearOrder β] {k : β} {h : α → β} {l : List α}

/-- What is below a bound does not count for the greatest, if something is
not. -/
theorem argmax_filter (hl : ∃ a ∈ l, k ≤ h a) :
    l.argmax h = (l.filter fun a => k ≤ h a).argmax h := by
  induction l using List.reverseRecOn with
  | nil =>
    obtain ⟨a, ha, -⟩ := hl
    cases ha
  | append_singleton l a ih =>
    rw [List.filter_append, List.argmax_concat]
    by_cases hbefore : ∃ b ∈ l, k ≤ h b
    · rw [ih hbefore]
      -- the greatest of those before is not below the bound
      obtain ⟨c, hc⟩ : ∃ c, (l.filter fun a => k ≤ h a).argmax h = some c := by
        obtain ⟨b, hb, hkb⟩ := hbefore
        have hmem : b ∈ l.filter fun a => k ≤ h a := List.mem_filter.mpr ⟨hb, decide_eq_true hkb⟩
        exact Option.ne_none_iff_exists'.mp
          fun hnone => List.ne_nil_of_mem hmem (List.argmax_eq_none.mp hnone)
      have hkc : k ≤ h c := of_decide_eq_true (List.mem_filter.mp (List.argmax_mem hc)).2
      by_cases ha : k ≤ h a
      · have hlast : ([a].filter fun a => k ≤ h a) = [a] := by simp [ha]
        rw [hlast, List.argmax_concat]
      · have hlast : ([a].filter fun a => k ≤ h a) = [] := by simp [not_le.mp ha]
        have hlt : ¬h c < h a := fun hca => ha (hkc.trans hca.le)
        rw [hlast, List.append_nil, hc]
        dsimp only
        rw [if_neg hlt]
    · have hnil : (l.filter fun a => k ≤ h a) = [] := by
        rw [List.filter_eq_nil_iff]
        exact fun b hb hkb => hbefore ⟨b, hb, of_decide_eq_true hkb⟩
      have ha : k ≤ h a := by
        obtain ⟨b, hb, hkb⟩ := hl
        rcases List.mem_append.mp hb with hb | hb
        · exact absurd ⟨b, hb, hkb⟩ hbefore
        · rwa [← List.mem_singleton.mp hb]
      have hlast : ([a].filter fun a => k ≤ h a) = [a] := by simp [ha]
      rw [hnil, hlast, List.nil_append, List.argmax_singleton]
      cases hmax : l.argmax h with
      | none => rfl
      | some c =>
        have hck : h c < k := not_le.mp fun hkc => hbefore ⟨c, List.argmax_mem hmax, hkc⟩
        dsimp only
        rw [if_pos (hck.trans_le ha)]

end Argmax

/-- The flags with a text from one address to another. -/
def between (str : List u8) (lo hi : ut64) (flags : List FlagT) : List FlagT :=
  flags.filter fun f => !passes str f ∧ lo ≤ f.offset ∧ f.offset ≤ hi

theorem mem_between {lo hi : ut64} : f ∈ between str lo hi flags ↔
    f ∈ flags ∧ ¬passes str f = true ∧ lo ≤ f.offset ∧ f.offset ≤ hi := by
  unfold between
  rw [List.mem_filter]
  simp

/-- Of the flags up to an address, those from a further one on. -/
theorem filter_between {lo lo' hi : ut64} (h : lo ≤ lo') :
    (between str lo hi flags).filter (fun f => lo' ≤ f.offset) = between str lo' hi flags := by
  unfold between
  rw [List.filter_filter]
  refine List.filter_congr fun f _ => ?_
  rw [Bool.eq_iff_iff, Bool.and_eq_true, decide_eq_true_iff, decide_eq_true_iff,
    decide_eq_true_iff]
  constructor
  · rintro ⟨hlo, hnot, -, hhi⟩
    exact ⟨hnot, hlo, hhi⟩
  · rintro ⟨hnot, hlo, hhi⟩
    exact ⟨hlo, hnot, h.trans hlo, hhi⟩

/-- One turn: a flag further up than the one found takes its place. -/
theorem argAux_found (hret : ret = found.elim 0 FlagT.offset) (hpos : 1 ≤ f.offset) :
    List.argAux (fun f g : FlagT => g.offset < f.offset) found f =
      if f.offset > ret then some f else found := by
  cases found with
  | none =>
    have hgt : f.offset > ret := by
      rw [hret]
      show f.offset > 0
      grind
    rw [if_pos hgt]
    rfl
  | some g =>
    have hret : ret = g.offset := hret
    rw [hret]
    unfold List.argAux
    dsimp only

/-- **The loop** finds the flag with the greatest address. -/
theorem searchLoop_fst (found : Option FlagT) (hret : ret = found.elim 0 FlagT.offset) :
    (searchLoop at_ str flags ret next found).1 =
      (between str 1 at_ flags).foldl (List.argAux fun f g => g.offset < f.offset) found := by
  induction flags generalizing ret next found with
  | nil => rfl
  | cons f flags ih =>
    have hskip : ¬(¬passes str f = true ∧ 1 ≤ f.offset ∧ f.offset ≤ at_) →
        between str 1 at_ (f :: flags) = between str 1 at_ flags := by
      intro h
      exact List.filter_cons_of_neg (by simpa using h)
    have hkeep : ¬passes str f = true ∧ 1 ≤ f.offset ∧ f.offset ≤ at_ →
        between str 1 at_ (f :: flags) = f :: between str 1 at_ flags := by
      intro h
      exact List.filter_cons_of_pos (by simpa using h)
    unfold searchLoop
    split_ifs with hpass habove hfound
    · rw [hskip fun h => h.1 hpass, ih found hret]
    · rw [hskip fun h => not_lt.mpr h.2.2 habove.2, ih found hret]
    · have hpos : 1 ≤ f.offset := by grind
      rw [hkeep ⟨hpass, hpos, hfound.1⟩, List.foldl_cons, argAux_found hret hpos, if_pos hfound.2]
      exact ih (some f) rfl
    · by_cases hin : 1 ≤ f.offset ∧ f.offset ≤ at_
      · have hnot : ¬f.offset > ret := fun h => hfound ⟨hin.2, h⟩
        rw [hkeep ⟨hpass, hin⟩, List.foldl_cons, argAux_found hret hin.1, if_neg hnot]
        exact ih found hret
      · rw [hskip fun h => hin h.2, ih found hret]

/-- **The search finds the nearest flag**: the first of those furthest up,
of the flags with the text that are not at zero and not above the
address. -/
theorem hereSearch_fst :
    (hereSearch flags at_ str).1 = (between str 1 at_ flags).argmax FlagT.offset :=
  searchLoop_fst none rfl

/-- The flags at or below an address, from the next one on. -/
theorem filter_nearest :
    (flags.filter fun f => !passes str f ∧ f.offset ≤ at_).filter (fun f => 1 ≤ f.offset) =
      between str 1 at_ flags := by
  unfold between
  rw [List.filter_filter]
  refine List.filter_congr fun f _ => ?_
  rw [Bool.eq_iff_iff, Bool.and_eq_true, decide_eq_true_iff, decide_eq_true_iff,
    decide_eq_true_iff]
  constructor
  · rintro ⟨hpos, hnot, hle⟩
    exact ⟨hnot, hpos, hle⟩
  · rintro ⟨hnot, hpos, hle⟩
    exact ⟨hpos, hnot, hle⟩

/-- A flag that the search finds is the nearest one. -/
theorem nearest_of_hereSearch (h : (hereSearch flags at_ str).1 = some f) :
    nearest flags at_ str = some f := by
  rw [hereSearch_fst] at h
  have hmem := mem_between.mp (List.argmax_mem h)
  have hex : ∃ g ∈ flags.filter fun f => !passes str f ∧ f.offset ≤ at_, 1 ≤ g.offset :=
    ⟨f, List.mem_filter.mpr ⟨hmem.1, by simpa using ⟨by simpa using hmem.2.1, hmem.2.2.2⟩⟩, hmem.2.2.1⟩
  rw [nearest, argmax_filter hex, filter_nearest, h]

/-- A flag that it does not find is at zero. -/
theorem offset_of_hereSearch_none (h : (hereSearch flags at_ str).1 = none)
    (hf : nearest flags at_ str = some f) : f.offset = 0 := by
  rw [hereSearch_fst, List.argmax_eq_none] at h
  by_contra hne
  have hpos : 1 ≤ f.offset := by grind
  have hmem := List.argmax_mem hf
  have hfound : f ∈ between str 1 at_ flags := by
    rw [← filter_nearest]
    exact List.mem_filter.mpr ⟨hmem, decide_eq_true hpos⟩
  rw [h] at hfound
  exact absurd hfound List.not_mem_nil

/-- The other address the loop keeps is not above any flag that is above
the address. -/
theorem searchLoop_snd_le :
    (searchLoop at_ str flags ret next found).2 ≤ next ∧
      ∀ g ∈ flags, ¬passes str g = true → at_ < g.offset →
        (searchLoop at_ str flags ret next found).2 ≤ g.offset := by
  induction flags generalizing ret next found with
  | nil => exact ⟨le_refl _, fun g hg => absurd hg List.not_mem_nil⟩
  | cons f flags ih =>
    unfold searchLoop
    split_ifs with hpass habove hfound
    · refine ⟨ih.1, fun g hg hnot hat => ?_⟩
      rcases List.mem_cons.mp hg with rfl | hg
      · exact absurd hpass hnot
      · exact ih.2 g hg hnot hat
    · refine ⟨ih.1.trans habove.1.le, fun g hg hnot hat => ?_⟩
      rcases List.mem_cons.mp hg with rfl | hg
      · exact ih.1
      · exact ih.2 g hg hnot hat
    · refine ⟨ih.1, fun g hg hnot hat => ?_⟩
      rcases List.mem_cons.mp hg with rfl | hg
      · exact absurd hat (not_lt.mpr hfound.1)
      · exact ih.2 g hg hnot hat
    · refine ⟨ih.1, fun g hg hnot hat => ?_⟩
      rcases List.mem_cons.mp hg with rfl | hg
      · -- above the address, but not below the one kept
        exact ih.1.trans (not_lt.mp fun h => habove ⟨h, hat⟩)
      · exact ih.2 g hg hnot hat

/-! ## An answer kept -/

/-- What a search found: the nearest flag, and from it up to the address and
to the next no flag with the text but at its own address. -/
theorem hereSearch_eq_some (h : hereSearch flags at_ str = (some f, next)) :
    f ∈ between str 1 at_ flags ∧
      ∀ g ∈ flags, ¬passes str g = true → f.offset ≤ g.offset →
        g.offset ≤ at_ ∨ g.offset < next → g.offset = f.offset := by
  have hfst : (between str 1 at_ flags).argmax FlagT.offset = some f := by
    rw [← hereSearch_fst, h]
  have hnext : ∀ g ∈ flags, ¬passes str g = true → at_ < g.offset → next ≤ g.offset := by
    have hsnd : (hereSearch flags at_ str).2 = next := by rw [h]
    rw [← hsnd]
    exact searchLoop_snd_le.2
  have hmem := List.argmax_mem hfst
  refine ⟨hmem, fun g hg hnot hlo hhi => ?_⟩
  have hat : g.offset ≤ at_ :=
    hhi.elim id fun hhi => not_lt.mp fun hat => absurd hhi (not_lt.mpr (hnext g hg hnot hat))
  have hpos : 1 ≤ g.offset := (mem_between.mp hmem).2.2.1.trans hlo
  -- up to the address none is above the one found
  exact le_antisymm (List.le_of_mem_argmax (mem_between.mpr ⟨hg, hnot, hpos, hat⟩) hfst) hlo

/-- **An answer holds up to the next flag**, and for every table with the
same flags from it on. -/
theorem hereSearch_of_between (h : hereSearch flags at_ str = (some f, next))
    (hlo : f.offset ≤ at') (hhi : at' < next)
    (hbetween : between str f.offset at' flags' = between str f.offset at' flags) :
    (hereSearch flags' at' str).1 = some f := by
  obtain ⟨hmem, hnone⟩ := hereSearch_eq_some h
  obtain ⟨hf, hnot, hpos, hat⟩ := mem_between.mp hmem
  -- between the flag and the next there is the flag's own address only
  have hsame : between str f.offset at' flags = between str f.offset at_ flags := by
    unfold between
    refine List.filter_congr fun g hg => ?_
    rw [Bool.eq_iff_iff, decide_eq_true_iff, decide_eq_true_iff]
    refine and_congr_right fun hpass => and_congr_right fun hstart => ?_
    have hpass : ¬passes str g = true := by simpa using hpass
    constructor
    · intro hle
      rwa [hnone g hg hpass hstart (Or.inr (hle.trans_lt hhi))]
    · intro hle
      rwa [hnone g hg hpass hstart (Or.inl hle)]
  have hmem' : f ∈ between str f.offset at' flags' := by
    rw [hbetween]
    exact mem_between.mpr ⟨hf, hnot, le_refl _, hlo⟩
  have hex : ∃ g ∈ between str 1 at' flags', f.offset ≤ g.offset :=
    ⟨f, mem_between.mpr ⟨(mem_between.mp hmem').1, hnot, hpos, hlo⟩, le_refl _⟩
  calc (hereSearch flags' at' str).1
      = (between str 1 at' flags').argmax FlagT.offset := hereSearch_fst
    _ = (between str f.offset at' flags').argmax FlagT.offset := by
        rw [argmax_filter hex, filter_between hpos]
    _ = (between str f.offset at_ flags).argmax FlagT.offset := by rw [hbetween, hsame]
    _ = (between str 1 at_ flags).argmax FlagT.offset := by
        rw [argmax_filter ⟨f, hmem, le_refl _⟩, filter_between hpos]
    _ = some f := by rw [← hereSearch_fst, h]

/-! ## Runs -/

/-- A change of the table, or a call. -/
inductive FlagOp where
  | set (c : FlagConfig) (name : List u8) (addr : ut64) (dup : Bool)
  | remove (interrupted : Bool) (name : List u8)
  | clear (interrupted : Bool) (addr : ut64)
  | here (at_ : ut64) (str : List u8)

/-- The flags and the static variables; and, read by no function, the table
and the text of the last search, unless it failed. -/
structure HereState where
  flags : List FlagT
  cache : HereCache
  last : Option (List FlagT × List u8)

/-- The answer for an address is kept. -/
def HereState.Holds (s : HereState) (at_ : ut64) : Prop :=
  at_ ≥ s.cache.start ∧ at_ < s.cache.end_

instance {s : HereState} : Decidable (s.Holds at_) := inferInstanceAs (Decidable (_ ∧ _))

/-- The table after it. -/
def FlagOp.edit (getMath : List FlagT → List u8 → ut64) (flags : List FlagT) :
    FlagOp → List FlagT
  | .set c name addr dup => (flagSet c flags name addr dup).1
  | .remove interrupted name => flagRemove getMath interrupted name flags
  | .clear interrupted addr => flagClearByAddr interrupted addr flags
  | .here _ _ => flags

/-- The program after it. -/
def FlagOp.run (getMath : List FlagT → List u8 → ut64) (s : HereState) : FlagOp → HereState
  | .here at_ str =>
    { s with
      cache := (flagGetHereFilter s.cache s.flags at_ str).1
      last := if s.Holds at_ then s.last
        else (hereSearch s.flags at_ str).1.map fun _ => (s.flags, str) }
  | op => { s with flags := op.edit getMath s.flags }

/-- The strings a run of calls and changes returns. -/
def answers (getMath : List FlagT → List u8 → ut64) (s : HereState) :
    List FlagOp → List (List u8)
  | [] => []
  | op :: ops =>
    let rest := answers getMath (op.run getMath s) ops
    match op with
    | .here at_ str => (flagGetHereFilter s.cache s.flags at_ str).2 :: rest
    | _ => rest

/-- The strings of the nearest flags instead. -/
def uncached (getMath : List FlagT → List u8 → ut64) (flags : List FlagT) :
    List FlagOp → List (List u8)
  | [] => []
  | op :: ops =>
    let rest := uncached getMath (op.edit getMath flags) ops
    match op with
    | .here at_ str => hereUncached flags at_ str :: rest
    | _ => rest

/-- An address whose answer is kept is asked for with the text of the last
search, which found something, and the flags with the text from its flag up
to the address are those of then. For any other, the nearest flag is not at
zero. -/
def HereState.Fresh (s : HereState) (at_ : ut64) (str : List u8) : Prop :=
  (s.Holds at_ → s.last.any fun last =>
    last.2 = str ∧
      between str s.cache.start at_ s.flags = between str s.cache.start at_ last.1) ∧
  (¬s.Holds at_ → (nearest s.flags at_ str).all fun f => f.offset ≠ 0)

instance {s : HereState} : Decidable (s.Fresh at_ str) :=
  inferInstanceAs (Decidable ((_ → _) ∧ (_ → _)))

/-- Every call of a run is fresh. -/
def FreshRun (getMath : List FlagT → List u8 → ut64) (s : HereState) : List FlagOp → Prop
  | [] => True
  | op :: ops =>
    (match op with
      | .here at_ str => s.Fresh at_ str
      | _ => True) ∧ FreshRun getMath (op.run getMath s) ops

/-- The static variables are what the last search has left, if it found
something. -/
def HereState.Valid (s : HereState) : Prop :=
  ∀ flags str, s.last = some (flags, str) → ∃ at_ f next,
    hereSearch flags at_ str = (some f, next) ∧ s.cache = ⟨f.offset, next, f.name.drop str.length⟩

variable {getMath : List FlagT → List u8 → ut64} {s : HereState}

theorem flagGetHereFilter_of_holds (h : s.Holds at_) :
    flagGetHereFilter s.cache s.flags at_ str = (s.cache, s.cache.str) := if_pos h

theorem flagGetHereFilter_of_not_holds (h : ¬s.Holds at_) :
    flagGetHereFilter s.cache s.flags at_ str =
      match hereSearch s.flags at_ str with
      | (none, _) => ({ s.cache with str := [] }, [])
      | (some f, next) => (⟨f.offset, next, f.name.drop str.length⟩, f.name.drop str.length) :=
  if_neg h

/-- **A call keeps the static variables valid.** -/
theorem HereState.Valid.run (h : s.Valid) (op : FlagOp) : (op.run getMath s).Valid := by
  cases op with
  | set c name addr dup => exact h
  | remove interrupted name => exact h
  | clear interrupted addr => exact h
  | here at_ str =>
    unfold FlagOp.run HereState.Valid
    dsimp only
    by_cases hold : s.Holds at_
    · rw [if_pos hold, flagGetHereFilter_of_holds hold]
      exact h
    · rw [if_neg hold, flagGetHereFilter_of_not_holds hold]
      intro flags str' hlast
      rcases hsearch : hereSearch s.flags at_ str with ⟨_ | f, next⟩
      · rw [hsearch] at hlast
        cases hlast
      · rw [hsearch] at hlast
        cases hlast
        exact ⟨at_, f, next, hsearch, rfl⟩

/-- **A fresh call answers with the nearest flag.** -/
theorem HereState.Valid.answer (h : s.Valid) (hfresh : s.Fresh at_ str) :
    (flagGetHereFilter s.cache s.flags at_ str).2 = hereUncached s.flags at_ str := by
  unfold hereUncached
  by_cases hold : s.Holds at_
  · obtain ⟨⟨flags, str'⟩, hlast, hsame⟩ := (Option.any_eq_true _ _).mp (hfresh.1 hold)
    obtain ⟨hstr, hbetween⟩ := of_decide_eq_true hsame
    obtain rfl : str' = str := hstr
    obtain ⟨at₀, f, next, hsearch, hcache⟩ := h flags str' hlast
    unfold HereState.Holds at hold
    rw [flagGetHereFilter_of_holds hold]
    rw [hcache] at hold hbetween ⊢
    rw [nearest_of_hereSearch (hereSearch_of_between hsearch hold.1 hold.2 hbetween)]
  · have hnot := hfresh.2 hold
    rw [flagGetHereFilter_of_not_holds hold]
    rcases hsearch : hereSearch s.flags at_ str with ⟨_ | f, next⟩
    · -- a nearest flag that is not found would be at zero
      have hnone : nearest s.flags at_ str = none := by
        refine Option.eq_none_iff_forall_not_mem.mpr fun f hf => ?_
        rw [Option.mem_def.mp hf, Option.all_some] at hnot
        exact of_decide_eq_true hnot (offset_of_hereSearch_none (by rw [hsearch]) hf)
      rw [hnone]
    · rw [nearest_of_hereSearch (f := f) (by rw [hsearch])]

theorem answers_of_fresh (h : s.Valid) {ops : List FlagOp} (hfresh : FreshRun getMath s ops) :
    answers getMath s ops = uncached getMath s.flags ops := by
  induction ops generalizing s with
  | nil => rfl
  | cons op ops ih =>
    obtain ⟨hop, hops⟩ := hfresh
    have hrest := ih (h.run op) hops
    cases op with
    | set c name addr dup => exact hrest
    | remove interrupted name => exact hrest
    | clear interrupted addr => exact hrest
    | here at_ str =>
      show (flagGetHereFilter s.cache s.flags at_ str).2 :: answers getMath _ ops =
        hereUncached s.flags at_ str :: uncached getMath s.flags ops
      rw [h.answer hop, hrest]
      rfl

/-- The program at its start, with a table of flags. -/
def hereStart (flags : List FlagT) : HereState := ⟨flags, ⟨0, 0, []⟩, none⟩

/-- **When the kept answers do not show**: a run of changes and calls, with
every call fresh, returns the strings of the nearest flags. -/
theorem here_transparent (getMath : List FlagT → List u8 → ut64) (flags : List FlagT)
    (ops : List FlagOp) (hfresh : FreshRun getMath (hereStart flags) ops) :
    answers getMath (hereStart flags) ops = uncached getMath flags ops := by
  refine answers_of_fresh ?_ hfresh
  intro flags str h
  cases h

/-- It is the run of a flag, two calls for it, another flag below and a call
again. -/
theorem here_transparent_calls :
    let c : FlagConfig := ⟨false, 0, 0, 0, 0⟩
    let ops : List FlagOp := [.set c [115, 46, 116] 0x1000 false, .here 0x1010 [115, 46],
      .here 0x1020 [115, 46], .set c [115, 46, 98] 0x800 false, .here 0x1010 [115, 46]]
    answers (fun _ _ => 0) (hereStart []) ops = [[116], [116], [116]] ∧
      answers (fun _ _ => 0) (hereStart []) ops = uncached (fun _ _ => 0) [] ops := by
  refine ⟨by decide +kernel, here_transparent _ _ _ ⟨trivial, ?_, ?_, trivial, ?_, trivial⟩⟩
  · decide +kernel
  · decide +kernel
  · decide +kernel

/-- **Another text gets the answer of the last**: asked for `s.` and then
for `s`, the flag `s.t` is `t` both times. -/
theorem text_not_asked_again :
    let c : FlagConfig := ⟨false, 0, 0, 0, 0⟩
    let ops : List FlagOp := [.set c [115, 46, 116] 0x1000 false, .here 0x1010 [115, 46],
      .here 0x1010 [115]]
    answers (fun _ _ => 0) (hereStart []) ops = [[116], [116]] ∧
      uncached (fun _ _ => 0) [] ops = [[116], [46, 116]] := by
  decide +kernel

end Radare
