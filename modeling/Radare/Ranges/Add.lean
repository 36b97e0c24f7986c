import Radare.Ranges.Model
import Radare.Common.Cover
/-!
# `ranges_add`

Five cases and one meaning: an element that touches the interval becomes
the least interval over both (`addCase_apply`), one that does not is left
alone, and the interval is appended where nothing touched it. So a call
is a map and an append (`rangesAdd_rang`), and everything the other files
say about the list is read off that equation rather than off the cases.

It holds of lists whose ranges are the right way round, which every list
is that `ranges_add` built: `ranges_abs` orders the ends, and no case
turns them.
-/

namespace Radare

open Common

/-- The addresses of a range. -/
def RangeT.addrs (r : RangeT) : Set ut64 := Set.Ico r.from_ r.to_

/-- A range the right way round. -/
def RangeT.Wf (r : RangeT) : Prop := r.from_ ≤ r.to_

/-- The range touches the interval from `f` to `t`. -/
def RangeT.Meets (f t : ut64) (r : RangeT) : Prop := Touches r.from_ r.to_ f t

instance (f t : ut64) : DecidablePred (RangeT.Meets f t) := fun r =>
  inferInstanceAs (Decidable (Touches r.from_ r.to_ f t))

/-- The least range over a range and an interval. -/
def RangeT.hull (f t : ut64) (r : RangeT) : RangeT := ⟨min r.from_ f, max r.to_ t⟩

/-- What `ranges_add` makes of an element. -/
def absorb (f t : ut64) (r : RangeT) : RangeT := if r.Meets f t then r.hull f t else r

/-- The addresses a list covers. -/
abbrev covered (rang : List RangeT) : Set ut64 := cover RangeT.addrs rang

variable {rang : List RangeT} {r : RangeT} {f t x : ut64} {rw : Bool}

theorem RangeT.mem_addrs : x ∈ r.addrs ↔ r.from_ ≤ x ∧ x < r.to_ := Iff.rfl

/-- `ranges_get` finds a range at exactly the addresses covered. -/
theorem rangesGet_ne_none : rangesGet rang x ≠ none ↔ x ∈ covered rang := by
  rw [rangesGet, Ne, List.find?_eq_none]
  simp [covered, mem_cover, RangeT.mem_addrs]

theorem rangesAbs_eq : rangesAbs f t = (min f t, max f t) := by
  unfold rangesAbs
  rcases lt_or_ge t f with h | h
  · rw [if_pos h, min_eq_right h.le, max_eq_left h.le]
  · rw [if_neg (not_lt.mpr h), min_eq_left h, max_eq_right h]

/-- **The five cases are one.** -/
theorem addCase_apply (hr : r.Wf) (hft : f ≤ t) : (addCase f t r).apply r = absorb f t r := by
  obtain ⟨a, b⟩ := r
  change a ≤ b at hr
  unfold absorb addCase RangeT.Meets Touches RangeT.hull
  dsimp only
  split_ifs <;> simp only [AddCase.apply] <;> grind

/-- And none of them applies to exactly the elements the interval does not
touch. -/
theorem addCase_eq_apart (hr : r.Wf) (hft : f ≤ t) :
    addCase f t r = .apart ↔ ¬ r.Meets f t := by
  obtain ⟨a, b⟩ := r
  change a ≤ b at hr
  unfold addCase RangeT.Meets Touches
  dsimp only
  split_ifs <;> simp <;> grind

/-! ## The call -/

/-- The interval is appended exactly where nothing in the list touches
it. -/
theorem rangesAdd_changed (hwf : ∀ r ∈ rang, r.Wf) :
    (rangesAdd rang f t rw).changed = true ↔
      rw = true ∧ ∀ r ∈ rang, ¬ r.Meets (min f t) (max f t) := by
  have hall : (rang.map (addCase (min f t) (max f t))).all (· = AddCase.apart) = true ↔
      ∀ r ∈ rang, ¬ r.Meets (min f t) (max f t) := by
    simp only [List.all_map, List.all_eq_true, Function.comp_apply, decide_eq_true_eq]
    exact forall₂_congr fun r hr => addCase_eq_apart (hwf r hr) min_le_max
  rw [← hall, rangesAdd, rangesAbs_eq]
  dsimp only
  split_ifs with h
  · simpa using h
  · simpa using h

/-- A call rewrites the elements one by one, and may append. -/
theorem rangesAdd_rang_cases : (rangesAdd rang f t rw).rang =
    (rang.map fun r => (addCase (min f t) (max f t) r).apply r) ++
      if (rangesAdd rang f t rw).changed then [⟨min f t, max f t⟩] else [] := by
  simp only [rangesAdd, rangesAbs_eq]
  by_cases h : (rw && (rang.map (addCase (min f t) (max f t))).all (· = AddCase.apart)) = true
  · rw [if_pos h]; rfl
  · rw [if_neg h]; simp

/-- **What a call leaves in the list.** -/
theorem rangesAdd_rang (hwf : ∀ r ∈ rang, r.Wf) :
    (rangesAdd rang f t rw).rang = rang.map (absorb (min f t) (max f t)) ++
      if (rangesAdd rang f t rw).changed then [⟨min f t, max f t⟩] else [] := by
  have hmap : rang.map (fun r => (addCase (min f t) (max f t) r).apply r) =
      rang.map (absorb (min f t) (max f t)) :=
    List.map_congr_left fun r hr => addCase_apply (hwf r hr) min_le_max
  rw [rangesAdd_rang_cases, hmap]

/-- Absorbing keeps a range the right way round. -/
theorem absorb_wf (hr : r.Wf) : (absorb f t r).Wf := by
  unfold absorb
  split_ifs
  · exact (min_le_left _ _).trans (hr.trans (le_max_left _ _))
  · exact hr

theorem rangesAdd_wf (hwf : ∀ r ∈ rang, r.Wf) : ∀ r ∈ (rangesAdd rang f t rw).rang, r.Wf := by
  intro r hr
  rw [rangesAdd_rang hwf, List.mem_append, List.mem_map] at hr
  rcases hr with ⟨s, hs, rfl⟩ | hr
  · exact absorb_wf (hwf s hs)
  · split_ifs at hr
    · rw [List.mem_singleton.mp hr]
      exact min_le_max
    · simp at hr

/-! ## The union -/

theorem RangeT.Meets.addrs_hull (h : r.Meets f t) : (r.hull f t).addrs = r.addrs ∪ Set.Ico f t :=
  Touches.Ico_hull h

/-- A touched element takes in the interval. -/
theorem addrs_absorb (h : r.Meets f t) : (absorb f t r).addrs = r.addrs ∪ Set.Ico f t := by
  rw [absorb, if_pos h, h.addrs_hull]

/-- Over the right lists, a call with `rw` set is a union. -/
theorem covered_rangesAdd (hwf : ∀ r ∈ rang, r.Wf) :
    covered (rangesAdd rang f t true).rang =
      covered rang ∪ Set.Ico (min f t) (max f t) := by
  have hmap : ∀ x, x ∈ covered (rang.map (absorb (min f t) (max f t))) ↔ x ∈ covered rang ∨
      (x ∈ Set.Ico (min f t) (max f t) ∧ ∃ r ∈ rang, r.Meets (min f t) (max f t)) := fun x =>
    mem_cover_map (fun r _ h => addrs_absorb h) fun r _ h => if_neg h
  ext x
  rw [rangesAdd_rang hwf, covered, cover_append, Set.mem_union, Set.mem_union, hmap]
  by_cases hc : (rangesAdd rang f t true).changed = true
  · -- nothing touches the interval, and it is appended
    have hno := ((rangesAdd_changed hwf).mp hc).2
    rw [if_pos hc, cover_cons, cover_nil, Set.union_empty]
    constructor
    · rintro ((h | ⟨h, -⟩) | h)
      · exact Or.inl h
      · exact Or.inr h
      · exact Or.inr h
    · rintro (h | h)
      · exact Or.inl (Or.inl h)
      · exact Or.inr h
  · -- something touches it, and takes it in
    have hex : ∃ r ∈ rang, r.Meets (min f t) (max f t) := by
      by_contra hno
      push Not at hno
      exact hc ((rangesAdd_changed hwf).mpr ⟨rfl, hno⟩)
    rw [if_neg hc, cover_nil]
    constructor
    · rintro ((h | ⟨h, -⟩) | h)
      · exact Or.inl h
      · exact Or.inr h
      · exact absurd h (Set.notMem_empty x)
    · rintro (h | h)
      · exact Or.inl (Or.inl h)
      · exact Or.inl (Or.inr ⟨h, hex⟩)

/-- The list a sequence of `ranges_add` calls builds. -/
def addAll (calls : List (ut64 × ut64 × Bool)) : List RangeT :=
  calls.foldl (fun rang (f, t, rw) => (rangesAdd rang f t rw).rang) []

theorem addAll_wf (calls : List (ut64 × ut64 × Bool)) : ∀ r ∈ addAll calls, r.Wf := by
  induction calls using List.reverseRecOn with
  | nil => simp [addAll]
  | append_singleton calls c ih =>
    rw [addAll, List.foldl_append]
    exact rangesAdd_wf ih

/-- **`ranges_add` is set union**, over every list `ranges_add` built and
whichever way round its two ends are given. -/
theorem rangesAdd_union (calls : List (ut64 × ut64 × Bool)) (f t x : ut64) :
    (∃ r ∈ (rangesAdd (addAll calls) f t true).rang, r.from_ ≤ x ∧ x < r.to_) ↔
      (∃ r ∈ addAll calls, r.from_ ≤ x ∧ x < r.to_) ∨ (min f t ≤ x ∧ x < max f t) := by
  have h : x ∈ covered (rangesAdd (addAll calls) f t true).rang ↔
      x ∈ covered (addAll calls) ∪ Set.Ico (min f t) (max f t) := by
    rw [covered_rangesAdd (addAll_wf calls)]
  simpa only [Set.mem_union, mem_cover, RangeT.mem_addrs, Set.mem_Ico] using h

end Radare
