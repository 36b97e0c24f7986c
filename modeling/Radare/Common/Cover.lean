import Mathlib.Data.Set.Card
import Mathlib.Order.CompletePartialOrder
import Mathlib.Order.Interval.Set.Basic
import Mathlib.Order.Interval.Set.LinearOrder
import Mathlib.Tactic.Order
/-!
# Lists of sets, and what they cover

A list of records, each of them standing for a set of addresses, covers
the union. `mem_cover_map` is how a pass that rewrites every element
acts on the union, `ncard_cover` counts it where the sets are disjoint,
and the second half is about half-open intervals of a linear order: two
of them that meet or touch have an interval for union.
-/

namespace Radare

namespace Common

/-! ## Covering -/

section Cover

variable {ι α : Type*} {set : ι → Set α} {l l' : List ι} {x : α}

/-- The addresses some record of the list stands for. -/
def cover (set : ι → Set α) (l : List ι) : Set α := {x | ∃ r ∈ l, x ∈ set r}

theorem mem_cover : x ∈ cover set l ↔ ∃ r ∈ l, x ∈ set r := Iff.rfl

@[simp] theorem cover_nil : cover set [] = ∅ := by
  ext x; simp [cover]

@[simp] theorem cover_cons {r : ι} : cover set (r :: l) = set r ∪ cover set l := by
  ext x; simp [cover]

@[simp] theorem cover_append : cover set (l ++ l') = cover set l ∪ cover set l' := by
  ext x; simp [cover, or_and_right, exists_or]

/-- A pass that joins one set to some of the elements joins it to the
union, or leaves the union alone where it joins it to none. -/
theorem mem_cover_map {g : ι → ι} {N : Set α} {P : ι → Prop}
    (hpos : ∀ r ∈ l, P r → set (g r) = set r ∪ N) (hneg : ∀ r ∈ l, ¬ P r → g r = r) :
    x ∈ cover set (l.map g) ↔ x ∈ cover set l ∨ (x ∈ N ∧ ∃ r ∈ l, P r) := by
  simp only [mem_cover, List.mem_map, exists_exists_and_eq_and]
  constructor
  · rintro ⟨r, hr, hx⟩
    by_cases hP : P r
    · rw [hpos r hr hP] at hx
      exact hx.elim (fun h => Or.inl ⟨r, hr, h⟩) fun h => Or.inr ⟨h, r, hr, hP⟩
    · rw [hneg r hr hP] at hx
      exact Or.inl ⟨r, hr, hx⟩
  · rintro (⟨r, hr, hx⟩ | ⟨hx, r, hr, hP⟩)
    · refine ⟨r, hr, ?_⟩
      by_cases hP : P r
      · rw [hpos r hr hP]; exact Or.inl hx
      · rw [hneg r hr hP]; exact hx
    · exact ⟨r, hr, by rw [hpos r hr hP]; exact Or.inr hx⟩

/-- **Disjoint sets are counted by their sizes.** -/
theorem ncard_cover [Finite α] (h : l.Pairwise fun a b => Disjoint (set a) (set b)) :
    (cover set l).ncard = (l.map fun r => (set r).ncard).sum := by
  induction l with
  | nil => simp
  | cons r l ih =>
    obtain ⟨hr, hl⟩ := List.pairwise_cons.mp h
    have hd : Disjoint (set r) (cover set l) := by
      refine Set.disjoint_left.mpr ?_
      rintro x hx ⟨s, hs, hxs⟩
      exact Set.disjoint_left.mp (hr s hs) hx hxs
    rw [cover_cons, Set.ncard_union_eq hd, ih hl, List.map_cons, List.sum_cons]

end Cover

/-! ## Half-open intervals -/

section Interval

variable {α : Type*} [LinearOrder α] {a b c d e g : α}

/-- `[a, b)` and `[c, d)` meet, or one ends where the other starts. -/
def Touches (a b c d : α) : Prop := a ≤ d ∧ c ≤ b

instance : Decidable (Touches a b c d) := inferInstanceAs (Decidable (a ≤ d ∧ c ≤ b))

theorem Touches.symm (h : Touches a b c d) : Touches c d a b := ⟨h.2, h.1⟩

/-- The least interval over both. -/
theorem Touches.Ico_hull (h : Touches a b c d) :
    Set.Ico (min a c) (max b d) = Set.Ico a b ∪ Set.Ico c d :=
  (Set.Ico_union_Ico' h.2 h.1).symm

/-- Intervals that do not touch are disjoint. -/
theorem disjoint_of_not_touches (h : ¬ Touches a b c d) :
    Disjoint (Set.Ico a b) (Set.Ico c d) := by
  refine Set.disjoint_left.mpr ?_
  rintro x ⟨hax, hxb⟩ ⟨hcx, hxd⟩
  exact h ⟨hax.trans hxd.le, hcx.trans hxb.le⟩

/-- **What touches neither of two touching intervals does not touch the
interval over both.** -/
theorem not_touches_hull (heg : e ≤ g) (h : Touches a b c d)
    (h₁ : ¬ Touches e g a b) (h₂ : ¬ Touches e g c d) :
    ¬ Touches e g (min a c) (max b d) := by
  rintro ⟨he, hg⟩
  obtain ⟨had, hcb⟩ := h
  simp only [Touches, not_and_or, not_le] at h₁ h₂
  rcases le_max_iff.mp he with he | he <;> rcases min_le_iff.mp hg with hg | hg
  · rcases h₁ with h | h <;> order
  · rcases h₁ with h | h
    · order
    · rcases h₂ with h' | h' <;> order
  · rcases h₂ with h' | h'
    · order
    · rcases h₁ with h | h <;> order
  · rcases h₂ with h | h <;> order

end Interval

end Common

end Radare
