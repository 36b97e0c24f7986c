import Radare.Common.Gaps
import Radare.Ranges.Count
import Radare.Ranges.Order
/-!
# What `ranges_boolean` prints

`ranges_boolean` sorts the global list and sweeps over it once: a range that
starts ahead of the cursor leaves a line, and takes the cursor to its end.
A range that starts at the cursor, or before it, is passed over, also where
it reaches beyond it: then the cursor stays inside of a range, and the next
line prints addresses that are covered. `rangesBoolean_complement_iff` is
when no such range comes.
-/

namespace Radare

open Common

/-- The variables of `ranges_boolean`, and the lines printed, each with the
two addresses in it. -/
structure BooleanState where
  from_ : ut64
  printed : List RangeT := []
  total : ut64 := 0
deriving DecidableEq

/-- A turn of its loop. -/
def booleanTurn (to_ : ut64) (b : BooleanState) (r : RangeT) : BooleanState :=
  if r.from_ > b.from_ ∧ r.from_ < to_ then
    ⟨r.to_, b.printed ++ [⟨b.from_, r.from_⟩], b.total + (r.from_ - b.from_)⟩
  else b

/-- What it does behind the loop. -/
def booleanLast (to_ : ut64) (b : BooleanState) : BooleanState :=
  if b.from_ < to_ then
    { b with printed := b.printed ++ [⟨b.from_, to_⟩], total := b.total + (to_ - b.from_) }
  else b

/-- `ranges_boolean`: the list as it was sorted, and what was printed. -/
def rangesBoolean (s : RangesState) (from_ to_ : ut64) : Option (RangesState × BooleanState) := do
  let s ← rangesSort s
  some (s, booleanLast to_ (s.ranges.foldl (booleanTurn to_) { from_ := from_ }))

/-- The lines are the complement of the ranges, without an address twice,
and the total is its size. -/
structure Complements (rang : List RangeT) (from_ to_ : ut64) (b : BooleanState) : Prop where
  disjoint : Disjointed b.printed
  covers : ∀ x, x ∈ covered b.printed ↔ (from_ ≤ x ∧ x < to_) ∧ x ∉ covered rang
  total : b.total.toNat = {x | (from_ ≤ x ∧ x < to_) ∧ x ∉ covered rang}.ncard

/-- The two ends of a range. -/
def RangeT.ends (r : RangeT) : ut64 × ut64 := (r.from_, r.to_)

variable {s : RangesState} {rang l : List RangeT} {from_ to_ : ut64} {b : BooleanState}

/-! ## The lines -/

theorem cover_ends : cover stretch (rang.map RangeT.ends) = covered rang := by
  ext x
  simp only [mem_cover, List.mem_map, exists_exists_and_eq_and]
  rfl

theorem covered_perm (h : rang.Perm l) : covered rang = covered l := by
  ext x
  exact exists_congr fun r => and_congr_left fun _ => h.mem_iff

/-- **The loop leaves the gaps**, behind the lines that are there. -/
theorem booleanTurn_foldl :
    (booleanLast to_ (rang.foldl (booleanTurn to_) b)).printed.map RangeT.ends =
      b.printed.map RangeT.ends ++ gaps to_ b.from_ (rang.map RangeT.ends) := by
  induction rang generalizing b with
  | nil =>
    rw [List.foldl_nil, List.map_nil, gaps, booleanLast]
    split_ifs
    · exact List.map_append
    · exact (List.append_nil _).symm
  | cons r rang ih =>
    rw [List.foldl_cons, ih, List.map_cons, gaps, booleanTurn]
    by_cases hr : r.from_ > b.from_ ∧ r.from_ < to_
    · rw [if_pos hr, if_pos (show b.from_ < r.ends.1 ∧ r.ends.1 < to_ from hr), List.map_append,
        List.append_assoc]
      rfl
    · rw [if_neg hr, if_neg (show ¬(b.from_ < r.ends.1 ∧ r.ends.1 < to_) from hr)]

/-- A line and its share of the total. -/
theorem rangesSize_concat (rang : List RangeT) (r : RangeT) :
    rangesSize (rang ++ [r]) = rangesSize rang + (r.to_ - r.from_) := by
  unfold rangesSize
  rw [List.foldl_append]
  rfl

/-- **The total is that of the lines.** -/
theorem booleanTurn_total (h : b.total = rangesSize b.printed) :
    (booleanLast to_ (rang.foldl (booleanTurn to_) b)).total =
      rangesSize (booleanLast to_ (rang.foldl (booleanTurn to_) b)).printed := by
  induction rang generalizing b with
  | nil =>
    rw [List.foldl_nil, booleanLast]
    split_ifs
    · dsimp only
      rw [rangesSize_concat, h]
    · exact h
  | cons r rang ih =>
    rw [List.foldl_cons]
    refine ih ?_
    unfold booleanTurn
    split_ifs
    · dsimp only
      rw [rangesSize_concat, h]
    · exact h

/-! ## When the lines are the gaps -/

/-- **Lines that do not meet are counted by the total.** -/
theorem complements_iff (hwf : ∀ r ∈ b.printed, r.Wf) (htotal : b.total = rangesSize b.printed) :
    Complements rang from_ to_ b ↔ Disjointed b.printed ∧
      ∀ x, x ∈ covered b.printed ↔ (from_ ≤ x ∧ x < to_) ∧ x ∉ covered rang := by
  refine ⟨fun h => ⟨h.disjoint, h.covers⟩, fun h => ⟨h.1, h.2, ?_⟩⟩
  rw [htotal, h.1.rangesSize_eq hwf]
  congr 1
  ext x
  exact rangesGet_ne_none.trans (h.2 x)

/-- **When `ranges_boolean` prints the complement**: for all lists and all
ends, the lines do not meet, they are the addresses from the first end to
the second that no range covers, and the total is the number of these, if
and only if each range of the sorted list that starts below the second end
either starts where the ranges before it reach, or before, and reaches no
further; or it starts ahead, is not upside down, and no range behind it has
an address in the gap. -/
theorem rangesBoolean_complement_iff (s : RangesState) (from_ to_ : ut64) :
    ∃ sorted b, rangesSort s = some sorted ∧ rangesBoolean s from_ to_ = some (sorted, b) ∧
      (Complements s.ranges from_ to_ b ↔ Swept to_ from_ (sorted.ranges.map RangeT.ends)) := by
  obtain ⟨sorted, hsort, hperm, -⟩ := rangesSort_cases s
  refine ⟨sorted, booleanLast to_ (sorted.ranges.foldl (booleanTurn to_) { from_ := from_ }), hsort,
    ?_, ?_⟩
  · rw [rangesBoolean, hsort]
    rfl
  generalize hb : booleanLast to_ (sorted.ranges.foldl (booleanTurn to_) { from_ := from_ }) = b
  have hlines : b.printed.map RangeT.ends = gaps to_ from_ (sorted.ranges.map RangeT.ends) := by
    rw [← hb]
    exact booleanTurn_foldl
  have htotal : b.total = rangesSize b.printed := by
    rw [← hb]
    exact booleanTurn_total rfl
  have hwf : ∀ r ∈ b.printed, r.Wf := by
    intro r hr
    have hmem := List.mem_map_of_mem (f := RangeT.ends) hr
    rw [hlines] at hmem
    exact (lt_of_mem_gaps hmem).le
  rw [complements_iff hwf htotal, ← gaps_exact_iff, GapsExact, ← hlines, List.pairwise_map, cover_ends,
    cover_ends, covered_perm hperm]
  exact Iff.rfl

/-- **A range around the first end is printed**: `[0, 10)`, from 5 to 20. -/
theorem range_around_printed :
    ∃ sorted b, rangesBoolean ⟨[⟨0, 10⟩], true⟩ 5 20 = some (sorted, b) ∧
      b.printed = [⟨5, 20⟩] ∧ ¬Complements [⟨0, 10⟩] 5 20 b := by
  refine ⟨⟨[⟨0, 10⟩], false⟩, ⟨5, [⟨5, 20⟩], 15⟩, by decide, rfl, fun h => ?_⟩
  have hin : (5 : ut64) ∈ covered [(⟨5, 20⟩ : RangeT)] :=
    ⟨_, List.mem_singleton_self _, RangeT.mem_addrs.mpr (by decide)⟩
  exact ((h.covers 5).mp hin).2 ⟨_, List.mem_singleton_self _, RangeT.mem_addrs.mpr (by decide)⟩

end Radare
