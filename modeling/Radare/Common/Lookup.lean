import Mathlib.Data.List.Basic
import Mathlib.Tactic.Common
/-!
# Entries found by a test

The first entry of a list that passes a test is known by its place, and read and
changed there (`entryAt`, `changeAt`). What is read is what the search finds
(`entryAt_findIdx?`), and if the test holds of one entry at most, the change is made
wherever it holds (`changeAt_findIdx?`). So a search by another test, which the
change does not touch, finds the same entry, changed or not (`find?_changeAt`).
-/

namespace Radare

namespace Common

variable {α : Type*} {f : α → α} {p q : α → Bool} {l : List α} {a : α}

/-- The entry at a place, if there is one. -/
def entryAt (l : List α) (i : Option ℕ) : Option α := i.bind (l[·]?)

/-- The list with the entry at a place changed, if there is one. -/
def changeAt (f : α → α) (l : List α) : Option ℕ → List α
  | some i => l.modify i f
  | none => l

/-- **What is read** at the place of the first entry that passes. -/
theorem entryAt_findIdx? (p : α → Bool) (l : List α) : entryAt l (l.findIdx? p) = l.find? p := by
  induction l with
  | nil => rfl
  | cons a l ih =>
    rw [List.findIdx?_cons]
    by_cases ha : p a = true
    · rw [if_pos ha, List.find?_cons_of_pos ha]
      rfl
    · rw [if_neg ha, List.find?_cons_of_neg ha, ← ih, entryAt, entryAt, Option.bind_map]
      rfl

theorem changeAt_cons (f : α → α) (a : α) (l : List α) (i : Option ℕ) :
    changeAt f (a :: l) (i.map (· + 1)) = a :: changeAt f l i := by
  cases i <;> rfl

/-- **What is changed**, if no two entries pass. -/
theorem changeAt_findIdx? (hone : l.Pairwise fun a b => ¬(p a ∧ p b)) :
    changeAt f l (l.findIdx? p) = l.map fun a => if p a then f a else a := by
  induction l with
  | nil => rfl
  | cons a l ih =>
    obtain ⟨ha, hl⟩ := List.pairwise_cons.mp hone
    rw [List.findIdx?_cons, List.map_cons]
    by_cases hp : p a = true
    · have hrest : l.map (fun a => if p a then f a else a) = l.map id :=
        List.map_congr_left fun b hb => if_neg fun hpb => ha b hb ⟨hp, hpb⟩
      rw [if_pos hp, if_pos hp, hrest, List.map_id]
      rfl
    · rw [if_neg hp, if_neg hp, changeAt_cons, ih hl]

/-- The entry behind a front is changed. -/
theorem modify_length (front rest : List α) (a : α) (f : α → α) :
    (front ++ a :: rest).modify front.length f = front ++ f a :: rest := by
  induction front with
  | nil => rfl
  | cons b front ih =>
    rw [List.cons_append, List.length_cons, List.modify_succ_cons, ih, List.cons_append]

theorem entryAt_changeAt (f : α → α) (l : List α) (i j : Option ℕ) :
    entryAt (changeAt f l i) j = if i = j then (entryAt l j).map f else entryAt l j := by
  rcases j with _ | j
  · rw [entryAt, entryAt, Option.bind_none, Option.bind_none, Option.map_none, ite_self]
  rcases i with _ | i
  · rw [if_neg (Option.some_ne_none j).symm]
    rfl
  · have hentry : entryAt (changeAt f l (some i)) (some j) = _ := List.getElem?_modify f i l j
    rw [hentry]
    by_cases hij : i = j
    · simp [entryAt, hij]
    · simp [entryAt, hij]

theorem entryAt_map {β : Type*} (g : α → β) (l : List α) (i : Option ℕ) :
    entryAt (l.map g) i = (entryAt l i).map g := by
  cases i with
  | none => rfl
  | some i => exact List.getElem?_map

theorem map_changeAt {β : Type*} {g : α → β} (l : List α) (i : Option ℕ) (hfg : ∀ a, g (f a) = g a) :
    (changeAt f l i).map g = l.map g := by
  cases i with
  | none => rfl
  | some i =>
    induction l generalizing i with
    | nil => rw [changeAt, List.modify_nil]
    | cons a l ih =>
      cases i with
      | zero => simp only [changeAt, List.modify_zero_cons, List.map_cons, hfg]
      | succ i =>
        have hl := ih i
        simp only [changeAt] at hl
        simp only [changeAt, List.modify_succ_cons, List.map_cons, hl]

/-- Of two changes in one place, the second one counts. -/
theorem changeAt_changeAt {g : α → α} (l : List α) (i : Option ℕ) (hfg : ∀ a, g (f a) = g a) :
    changeAt g (changeAt f l i) i = changeAt g l i := by
  cases i with
  | none => rfl
  | some i =>
    have hcomp : g ∘ f = g := funext hfg
    rw [changeAt, changeAt, changeAt, List.modify_modify_eq, hcomp]

/-- **Another search** finds the same entry. -/
theorem find?_changeAt (hone : l.Pairwise fun a b => ¬(p a ∧ p b)) (hq : ∀ a, q (f a) = q a) :
    (changeAt f l (l.findIdx? p)).find? q = (l.find? q).map fun a => if p a then f a else a := by
  rw [changeAt_findIdx? hone, List.find?_map]
  congr 2
  funext a
  rw [Function.comp]
  split_ifs
  · exact hq a
  · rfl

/-- A change does not reach a search that its test finds no entry for. -/
theorem findIdx?_changeAt (i : Option ℕ) (hq : ∀ a, q (f a) = q a) :
    (changeAt f l i).findIdx? q = l.findIdx? q := by
  cases i with
  | none => rfl
  | some i =>
    induction l generalizing i with
    | nil =>
      rw [changeAt, List.modify_nil]
    | cons a l ih =>
      cases i with
      | zero => simp only [changeAt, List.modify_zero_cons, List.findIdx?_cons, hq]
      | succ i =>
        have hl := ih i
        simp only [changeAt] at hl
        simp only [changeAt, List.modify_succ_cons, List.findIdx?_cons, hl]

end Common

end Radare
