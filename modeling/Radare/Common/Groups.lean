import Mathlib.Data.List.Basic
import Mathlib.Tactic.Common
/-!
# Groups that are reversed

A list in groups of `w`, each of them reversed, and what is left over at
the end as it was: symbol by symbol (`getElem?_reverseGroups`), and undone
by doing it once more (`reverseGroups_reverseGroups`).
-/

namespace Radare

namespace Common

variable {α : Type*} {w i : ℕ} {l front rest : List α}

/-- Every complete group of `w` reversed. -/
def reverseGroups (w : ℕ) (l : List α) : List α :=
  if 0 < w ∧ w ≤ l.length then (l.take w).reverse ++ reverseGroups w (l.drop w) else l
termination_by l.length
decreasing_by
  rw [List.length_drop]
  omega

theorem reverseGroups_of_lt (h : l.length < w) : reverseGroups w l = l := by
  rw [reverseGroups, if_neg (by omega)]

/-- The first group, and the others. -/
theorem reverseGroups_append (hw : 0 < w) (hfront : front.length = w) :
    reverseGroups w (front ++ rest) = front.reverse ++ reverseGroups w rest := by
  rw [reverseGroups, if_pos ⟨hw, by rw [List.length_append]; omega⟩, List.take_left' hfront,
    List.drop_left' hfront]

/-- What holds of less than a group, and of a group before what it holds
of. -/
theorem groups_induction {motive : List α → Prop} (hw : 0 < w)
    (short : ∀ l, l.length < w → motive l)
    (group : ∀ front rest, front.length = w → motive rest → motive (front ++ rest)) (l : List α) :
    motive l := by
  induction hn : l.length using Nat.strongRecOn generalizing l with
  | _ n ih =>
    rcases Nat.lt_or_ge l.length w with hlt | hge
    · exact short l hlt
    · have hrest := ih (l.drop w).length (by rw [List.length_drop]; omega) (l.drop w) rfl
      have h := group (l.take w) (l.drop w) (List.length_take_of_le hge) hrest
      rwa [List.take_append_drop] at h

@[simp] theorem length_reverseGroups (hw : 0 < w) : (reverseGroups w l).length = l.length := by
  induction l using groups_induction hw with
  | short l h => rw [reverseGroups_of_lt h]
  | group front rest hfront ih =>
    rw [reverseGroups_append hw hfront, List.length_append, List.length_append,
      List.length_reverse, ih]

/-- **Twice reversed is as before.** -/
theorem reverseGroups_reverseGroups (hw : 0 < w) :
    reverseGroups w (reverseGroups w l) = l := by
  induction l using groups_induction hw with
  | short l h => rw [reverseGroups_of_lt h, reverseGroups_of_lt h]
  | group front rest hfront ih =>
    rw [reverseGroups_append hw hfront,
      reverseGroups_append hw (List.length_reverse.trans hfront), List.reverse_reverse, ih]

/-- **Symbol by symbol**: the group of a place ends inside the list, or the
symbol is left. -/
theorem getElem?_reverseGroups (hw : 0 < w) (i : ℕ) :
    (reverseGroups w l)[i]? =
      if i / w * w + w ≤ l.length then l[i / w * w + (w - 1 - i % w)]? else l[i]? := by
  induction l using groups_induction hw generalizing i with
  | short l h =>
    rw [reverseGroups_of_lt h, if_neg (by omega)]
  | group front rest hfront ih =>
    have hmod := Nat.mod_lt i hw
    rw [reverseGroups_append hw hfront, List.length_append, hfront]
    rcases Nat.lt_or_ge i w with hlt | hge
    · rw [Nat.div_eq_of_lt hlt, Nat.mod_eq_of_lt hlt, Nat.zero_mul, Nat.zero_add, Nat.zero_add,
        if_pos (by omega), List.getElem?_append_left (by rw [List.length_reverse]; omega),
        List.getElem?_append_left (by omega), List.getElem?_reverse (by omega), hfront]
    · obtain ⟨j, rfl⟩ := Nat.exists_eq_add_of_le hge
      have hdiv : (w + j) / w = j / w + 1 := Nat.add_div_left j hw
      have hend : j / w * w + w ≤ rest.length ↔ (j / w + 1) * w + w ≤ w + rest.length := by
        rw [Nat.succ_mul]
        omega
      rw [List.getElem?_append_right (by rw [List.length_reverse]; omega), List.length_reverse,
        hfront, Nat.add_sub_cancel_left, ih j, hdiv, Nat.add_mod_left]
      refine if_congr hend ?_ ?_
      · rw [List.getElem?_append_right (by rw [Nat.succ_mul]; omega), hfront, Nat.succ_mul]
        congr 1
        omega
      · rw [List.getElem?_append_right (by omega), hfront, Nat.add_sub_cancel_left]

end Common

end Radare
