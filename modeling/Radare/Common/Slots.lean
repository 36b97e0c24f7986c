import Mathlib.Data.Fintype.Card
import Mathlib.Algebra.Group.Int.Defs
import Mathlib.Tactic.Common
/-!
# Tables of slots

A table has a fixed number of slots. One that is free holds zero, and a
count is kept of the others. A count that fits (`Tallied`) goes on doing so
when a free slot takes a new entry or one that is in use is freed. If
moreover the entries in use are the first ones (`Dense`), then taking the
first free slot keeps it so, and freeing one does only if it is the last in
use (`Dense.free_iff`).
-/

namespace Radare

namespace Common

variable {n : ℕ} {α : Type*} [Zero α] [DecidableEq α]
variable {t : Fin n → α} {c : ℤ} {i j : Fin n} {a : α}

/-- The slots in use. -/
def used (t : Fin n → α) : Finset (Fin n) := Finset.univ.filter fun i => t i ≠ 0

@[simp] theorem mem_used : i ∈ used t ↔ t i ≠ 0 := by
  rw [used, Finset.mem_filter_univ]

theorem used_update_of_ne_zero (ha : a ≠ 0) : used (Function.update t i a) = insert i (used t) := by
  ext j
  rw [mem_used, Finset.mem_insert, mem_used]
  by_cases hj : j = i
  · rw [hj, Function.update_self]
    simp [ha]
  · rw [Function.update_of_ne hj]
    simp [hj]

theorem used_update_zero : used (Function.update t i 0) = (used t).erase i := by
  ext j
  rw [mem_used, Finset.mem_erase, mem_used]
  by_cases hj : j = i
  · rw [hj, Function.update_self]
    simp
  · rw [Function.update_of_ne hj]
    simp [hj]

theorem card_used_le : (used t).card ≤ n :=
  (Finset.card_le_univ _).trans_eq (Fintype.card_fin n)

/-! ## Counts -/

/-- The count is that of the slots in use, and no entry is in two. -/
structure Tallied (t : Fin n → α) (c : ℤ) : Prop where
  count : c = (used t).card
  distinct : ∀ i j, t i ≠ 0 → t i = t j → i = j

theorem Tallied.nonneg (h : Tallied t c) : 0 ≤ c := by
  rw [h.count]
  omega

theorem Tallied.le (h : Tallied t c) : c ≤ n := by
  rw [h.count]
  exact_mod_cast card_used_le

/-- A free slot, as long as the table is not full. -/
theorem Tallied.exists_free (h : Tallied t c) (hc : c ≠ n) : ∃ i, t i = 0 := by
  by_contra hnone
  rw [not_exists] at hnone
  refine hc ?_
  rw [h.count, Finset.eq_univ_of_forall fun i => mem_used.mpr (hnone i), Finset.card_univ,
    Fintype.card_fin]

/-- A free slot takes a new entry. -/
theorem Tallied.take (h : Tallied t c) (hi : t i = 0) (ha : a ≠ 0) (hnew : ∀ j, t j ≠ a) :
    Tallied (Function.update t i a) (c + 1) where
  count := by
    have hmem : i ∉ used t := fun hmem => mem_used.mp hmem hi
    rw [used_update_of_ne_zero ha, Finset.card_insert_of_notMem hmem, h.count]
    rfl
  distinct k j hk hkj := by
    by_cases hki : k = i <;> by_cases hji : j = i
    · rw [hki, hji]
    · rw [hki, Function.update_self, Function.update_of_ne hji] at hkj
      exact absurd hkj.symm (hnew j)
    · rw [hji, Function.update_self, Function.update_of_ne hki] at hkj
      exact absurd hkj (hnew k)
    · rw [Function.update_of_ne hki] at hk hkj
      rw [Function.update_of_ne hji] at hkj
      exact h.distinct k j hk hkj

/-- One in use is freed. -/
theorem Tallied.free (h : Tallied t c) (hi : t i ≠ 0) :
    Tallied (Function.update t i 0) (c - 1) where
  count := by
    have hmem : i ∈ used t := mem_used.mpr hi
    have hpos := Finset.card_pos.mpr ⟨i, hmem⟩
    rw [used_update_zero, Finset.card_erase_of_mem hmem, h.count]
    omega
  distinct k j hk hkj := by
    by_cases hki : k = i
    · rw [hki, Function.update_self] at hk
      exact absurd rfl hk
    · by_cases hji : j = i
      · rw [hji, Function.update_self] at hkj
        exact absurd hkj hk
      · rw [Function.update_of_ne hki] at hk hkj
        rw [Function.update_of_ne hji] at hkj
        exact h.distinct k j hk hkj

/-- Freeing a slot that is free spoils the count. -/
theorem Tallied.not_free (h : Tallied t c) (hi : t i = 0) :
    ¬Tallied (Function.update t i 0) (c - 1) := by
  intro hfree
  have hcount := hfree.count
  rw [show Function.update t i 0 = t by rw [← hi, Function.update_eq_self], ← h.count] at hcount
  omega

/-! ## Dense tables -/

/-- The slots in use are below the count. -/
structure Dense (t : Fin n → α) (c : ℤ) : Prop extends Tallied t c where
  below : ∀ i, t i ≠ 0 → (i : ℤ) < c

/-- **They are all the slots below it.** -/
theorem Dense.used_iff (h : Dense t c) : t i ≠ 0 ↔ (i : ℤ) < c := by
  refine ⟨h.below i, fun hic => mem_used.mp ?_⟩
  -- as many as there are, and all among them
  have hsub : (used t).map Fin.valEmbedding ⊆ Finset.range (used t).card := by
    intro k hk
    obtain ⟨j, hj, rfl⟩ := Finset.mem_map.mp hk
    have hjc := h.below j (mem_used.mp hj)
    rw [h.count] at hjc
    exact Finset.mem_range.mpr (by exact_mod_cast hjc)
  have heq : (used t).map Fin.valEmbedding = Finset.range (used t).card :=
    Finset.eq_of_subset_of_card_le hsub (by rw [Finset.card_range, Finset.card_map])
  have hmem : (i : ℕ) ∈ (used t).map Fin.valEmbedding := by
    rw [heq, Finset.mem_range]
    rw [h.count] at hic
    exact_mod_cast hic
  obtain ⟨j, hj, hji⟩ := Finset.mem_map.mp hmem
  rwa [← Fin.val_injective hji]

/-- The first free slot is the one the count names. -/
theorem Dense.first_free (h : Dense t c) (hi : t i = 0) (hfirst : ∀ j < i, t j ≠ 0) :
    (i : ℤ) = c := by
  have hge : ¬(i : ℤ) < c := fun hlt => h.used_iff.mpr hlt hi
  by_contra hne
  have hc0 := h.nonneg
  have hlt : c.toNat < i := by omega
  have hused := hfirst ⟨c.toNat, by omega⟩ (Fin.mk_lt_of_lt_val hlt)
  have := h.below _ hused
  simp only at this
  omega

/-- **Taking the first free slot.** -/
theorem Dense.take (h : Dense t c) (hi : t i = 0) (hfirst : ∀ j < i, t j ≠ 0) (ha : a ≠ 0)
    (hnew : ∀ j, t j ≠ a) : Dense (Function.update t i a) (c + 1) where
  toTallied := h.toTallied.take hi ha hnew
  below j hj := by
    by_cases hji : j = i
    · have := h.first_free hi hfirst
      rw [hji]
      omega
    · rw [Function.update_of_ne hji] at hj
      have := h.below j hj
      omega

/-- **Freeing a slot** leaves the table dense if and only if it is the last
one in use. -/
theorem Dense.free_iff (h : Dense t c) :
    Dense (Function.update t i 0) (c - 1) ↔ (i : ℤ) + 1 = c := by
  constructor
  · intro hfree
    by_cases hi : t i = 0
    · exact absurd hfree.toTallied (h.toTallied.not_free hi)
    · -- slot `i` is free now, and those below the new count are not
      have hge : ¬(i : ℤ) < c - 1 := fun hlt =>
        hfree.used_iff.mpr hlt (Function.update_self i 0 t)
      have := h.below i hi
      omega
  · intro hic
    have hi : t i ≠ 0 := h.used_iff.mpr (by omega)
    refine ⟨h.toTallied.free hi, fun j hj => ?_⟩
    by_cases hji : j = i
    · rw [hji, Function.update_self] at hj
      exact absurd rfl hj
    · rw [Function.update_of_ne hji] at hj
      have := h.below j hj
      have : (j : ℕ) ≠ i := fun hval => hji (Fin.ext hval)
      omega

/-- A table with nothing in it. -/
theorem dense_of_free (h : ∀ i, t i = 0) : Dense t 0 where
  count := by
    rw [Finset.eq_empty_of_forall_notMem fun i hi => mem_used.mp hi (h i)]
    rfl
  distinct i _ hi := absurd (h i) hi
  below i hi := absurd (h i) hi

end Common

end Radare
