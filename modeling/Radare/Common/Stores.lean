import Mathlib.Data.List.GetD
import Mathlib.Logic.Function.Basic
import Mathlib.Tactic.Common
/-!
# Stores

Values stored at places, one after the other, where the last one stays (`stored`). Stores to
places in a row are those of a list (`storesAt`), and what is stored behind a list over its
end makes a longer one (`stored_cover`).
-/

namespace Radare.Common

variable {β : Type*} {m : ℕ → β} {ws ws' : List (ℕ × β)} {as bs : List β} {b d : β} {p q i k n : ℕ}

/-- What is there behind some stores. -/
def stored (m : ℕ → β) (ws : List (ℕ × β)) : ℕ → β :=
  ws.foldl (fun m w => Function.update m w.1 w.2) m

/-- The stores of a list from a place on. -/
def storesAt : ℕ → List β → List (ℕ × β)
  | _, [] => []
  | p, b :: bs => (p, b) :: storesAt (p + 1) bs

theorem stored_append : stored m (ws ++ ws') = stored (stored m ws) ws' := List.foldl_append

/-- Where nothing is stored it is as it was. -/
theorem stored_of_ne (h : ∀ w ∈ ws, w.1 ≠ i) : stored m ws i = m i := by
  induction ws generalizing m with
  | nil => rfl
  | cons w ws ih =>
    have hw : i ≠ w.1 := (h w List.mem_cons_self).symm
    exact (ih fun w' hw' => h w' (List.mem_cons_of_mem _ hw')).trans (Function.update_of_ne hw ..)

theorem storesAt_append : storesAt p (as ++ bs) = storesAt p as ++ storesAt (p + as.length) bs := by
  induction as generalizing p with
  | nil => rfl
  | cons a as ih =>
    rw [List.cons_append, storesAt, storesAt, ih, List.length_cons, List.cons_append,
      Nat.add_assoc, Nat.add_comm 1]

/-- One value to places in a row. -/
theorem storesAt_replicate :
    (List.range' k n).map (fun i => (i + p, b)) = storesAt (k + p) (List.replicate n b) := by
  induction n generalizing k with
  | zero => rfl
  | succ n ih =>
    rw [List.range'_succ, List.map_cons, ih, List.replicate_succ, storesAt, Nat.add_right_comm]

/-- **They go to the places of the list and no others.** -/
theorem mem_storesAt_iff : (∃ b, (i, b) ∈ storesAt p bs) ↔ p ≤ i ∧ i < p + bs.length := by
  induction bs generalizing p with
  | nil =>
    refine iff_of_false ?_ (by rw [List.length_nil]; omega)
    rintro ⟨b, hb⟩
    exact List.not_mem_nil hb
  | cons a bs ih =>
    have hcons : (∃ b, (i, b) ∈ storesAt p (a :: bs)) ↔
        i = p ∨ ∃ b, (i, b) ∈ storesAt (p + 1) bs := by
      simp only [storesAt, List.mem_cons, Prod.mk.injEq, exists_or, exists_and_left,
        exists_eq, and_true]
    rw [hcons, ih, List.length_cons]
    omega

theorem forall_storesAt {P : ℕ → Prop} :
    (∀ w ∈ storesAt p bs, P w.1) ↔ ∀ i, p ≤ i → i < p + bs.length → P i := by
  constructor
  · intro h i hp hi
    obtain ⟨b, hb⟩ := mem_storesAt_iff.mpr ⟨hp, hi⟩
    exact h _ hb
  · intro h w hw
    obtain ⟨hp, hi⟩ := mem_storesAt_iff.mp ⟨w.2, hw⟩
    exact h _ hp hi

/-- **What is there then.** -/
theorem stored_storesAt :
    stored m (storesAt p bs) i = if p ≤ i then bs[i - p]?.getD (m i) else m i := by
  induction bs generalizing p m with
  | nil =>
    rw [List.getElem?_nil, Option.getD_none, ite_self]
    rfl
  | cons b bs ih =>
    change stored (Function.update m p b) (storesAt (p + 1) bs) i = _
    rw [ih]
    by_cases hi : i = p
    · subst hi
      rw [if_neg (by omega), if_pos (Nat.le_refl i), Nat.sub_self, Function.update_self]
      rfl
    · rw [Function.update_of_ne hi]
      by_cases hin : p + 1 ≤ i
      · have hsucc : i - p = i - (p + 1) + 1 := by omega
        rw [if_pos hin, if_pos (by omega), hsucc, List.getElem?_cons_succ]
      · rw [if_neg hin, if_neg (by omega)]

/-- **Stored over the end of a list**: as one list. -/
theorem stored_cover (hk : k ≤ as.length) (hle : as.length ≤ k + bs.length) :
    stored m (storesAt p as ++ storesAt (p + k) bs) = stored m (storesAt p (as.take k ++ bs)) := by
  have hfront : (as.take k).length = k := List.length_take_of_le hk
  ext i
  rw [stored_append, stored_storesAt, stored_storesAt, stored_storesAt]
  by_cases hpi : p ≤ i
  · obtain ⟨j, rfl⟩ := Nat.exists_eq_add_of_le hpi
    rw [if_pos hpi, if_pos hpi, Nat.add_sub_cancel_left]
    by_cases hjk : j < k
    · rw [if_neg (by omega), List.getElem?_append_left (by omega), List.getElem?_take_of_lt hjk]
    · have hsub : p + j - (p + k) = j - k := by omega
      rw [if_pos (by omega), hsub, List.getElem?_append_right (by omega), hfront]
      cases hj : bs[j - k]? with
      | some b => rfl
      | none =>
        have hend : bs.length ≤ j - k := List.getElem?_eq_none_iff.mp hj
        rw [Option.getD_none, List.getElem?_eq_none (by omega)]
  · rw [if_neg (by omega), if_neg hpi, if_neg hpi]

end Radare.Common
