import Mathlib.Data.List.Basic
import Mathlib.Tactic.Common
/-!
# Texts cut at a character

What is in front of the first of a kind in a text is what was put there, if
it has none of them (`takeWhile_ne_append`, `dropWhile_ne_append`). So lines
that are written one behind the other, with a separator behind each, come
apart again (`splitOn_lines`).
-/

namespace Radare

namespace Common

variable {α : Type*} {c : α} {l rest : List α}

theorem takeWhile_stop {p : α → Bool} (hl : ∀ d ∈ l, p d = true)
    (hrest : ∀ d ∈ rest.head?, p d = false) : (l ++ rest).takeWhile p = l := by
  rw [List.takeWhile_append_of_pos hl]
  cases rest with
  | nil => exact List.append_nil l
  | cons d rest => rw [List.takeWhile_cons_of_neg (by simp [hrest d rfl]), List.append_nil]

theorem dropWhile_stop {p : α → Bool} (hl : ∀ d ∈ l, p d = true)
    (hrest : ∀ d ∈ rest.head?, p d = false) : (l ++ rest).dropWhile p = rest := by
  rw [List.dropWhile_append_of_pos hl]
  cases rest with
  | nil => rfl
  | cons d rest => exact List.dropWhile_cons_of_neg (by simp [hrest d rfl])

theorem takeWhile_drop {p : α → Bool} {n : ℕ}
    (hn : n ≤ (l.takeWhile p).length) :
    (l.drop n).takeWhile p = (l.takeWhile p).drop n := by
  induction l generalizing n with
  | nil => rw [List.drop_nil, List.takeWhile_nil, List.drop_nil]
  | cons a l ih =>
    cases n with
    | zero => rfl
    | succ n =>
      rw [List.takeWhile_cons] at hn ⊢
      split_ifs at hn ⊢
      · exact ih (Nat.le_of_succ_le_succ hn)
      · exact absurd hn (Nat.not_succ_le_zero n)

section Cut

variable [DecidableEq α]

theorem forall_decide_ne (h : c ∉ l) : ∀ d ∈ l, decide (d ≠ c) = true := by
  intro d hd
  rw [decide_eq_true_iff]
  rintro rfl
  exact h hd

theorem takeWhile_ne_append (h : c ∉ l) (hrest : ∀ d ∈ rest.head?, d = c) :
    (l ++ rest).takeWhile (· ≠ c) = l :=
  takeWhile_stop (forall_decide_ne h) fun d hd => by simpa using hrest d hd

theorem dropWhile_ne_append (h : c ∉ l) (hrest : ∀ d ∈ rest.head?, d = c) :
    (l ++ rest).dropWhile (· ≠ c) = rest :=
  dropWhile_stop (forall_decide_ne h) fun d hd => by simpa using hrest d hd

theorem takeWhile_ne_cons (h : c ∉ l) : (l ++ c :: rest).takeWhile (· ≠ c) = l :=
  takeWhile_ne_append h fun _ hd => (Option.some.inj hd).symm

theorem dropWhile_ne_cons (h : c ∉ l) : (l ++ c :: rest).dropWhile (· ≠ c) = c :: rest :=
  dropWhile_ne_append h fun _ hd => (Option.some.inj hd).symm

end Cut

/-- **The lines come apart again.** -/
theorem splitOn_lines [BEq α] [LawfulBEq α] {lines : List (List α)}
    (h : ∀ line ∈ lines, c ∉ line ∧ line ≠ []) :
    ((lines.flatMap fun line => line ++ [c]).splitOn c).filter (· ≠ []) = lines := by
  induction lines with
  | nil => rfl
  | cons line lines ih =>
    obtain ⟨hnot, hne⟩ := h line List.mem_cons_self
    rw [List.flatMap_cons, List.append_assoc, List.singleton_append,
      List.splitOn_append_cons_self_of_not_mem hnot, List.filter_cons_of_pos (by simp [hne]),
      ih fun other ho => h other (List.mem_cons_of_mem _ ho)]

end Common

end Radare
