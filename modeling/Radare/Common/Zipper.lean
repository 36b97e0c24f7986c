import Mathlib.Data.List.Basic
import Mathlib.Tactic.Common
/-!
# Lists with a place in them

A list that is edited at a place: the entries before it and those behind
it. No operation can leave the place outside of the list.
-/

namespace Radare

namespace Common

variable {α : Type*}

/-- A list with a place in it. -/
structure Zipper (α : Type*) where
  before : List α
  behind : List α
deriving DecidableEq

namespace Zipper

variable {z : Zipper α} {l : List α} {c : α}

/-- The list. -/
def text (z : Zipper α) : List α := z.before ++ z.behind

/-- A list with the place in front of it. -/
def atStart (l : List α) : Zipper α := ⟨[], l⟩

/-- A list with the place at its end. -/
def atEnd (l : List α) : Zipper α := ⟨l, []⟩

/-- An entry put in at the place, which moves behind it. -/
def put (c : α) (z : Zipper α) : Zipper α := ⟨z.before ++ [c], z.behind⟩

/-- The place one entry back. -/
def left (z : Zipper α) : Zipper α :=
  match z.before.getLast? with
  | none => z
  | some c => ⟨z.before.dropLast, c :: z.behind⟩

/-- The place one entry on. -/
def right (z : Zipper α) : Zipper α :=
  match z.behind with
  | [] => z
  | c :: behind => ⟨z.before ++ [c], behind⟩

/-- Without the entry before the place. -/
def backspace (z : Zipper α) : Zipper α := ⟨z.before.dropLast, z.behind⟩

/-- Without the entry behind the place. -/
def delete (z : Zipper α) : Zipper α := ⟨z.before, z.behind.tail⟩

@[simp] theorem text_atStart : (atStart l).text = l := rfl

@[simp] theorem text_atEnd : (atEnd l).text = l := List.append_nil l

@[simp] theorem before_atStart : (atStart l).before = [] := rfl

@[simp] theorem before_atEnd : (atEnd l).before = l := rfl

theorem length_text : z.text.length = z.before.length + z.behind.length :=
  List.length_append

theorem length_before_le : z.before.length ≤ z.text.length :=
  z.length_text ▸ Nat.le_add_right _ _

/-- The place is at the end if nothing is behind it. -/
theorem length_before_lt_iff : z.before.length < z.text.length ↔ z.behind ≠ [] := by
  rw [length_text, ← List.length_pos_iff]
  omega

@[simp] theorem text_left : z.left.text = z.text := by
  unfold left
  cases hlast : z.before.getLast? with
  | none => rfl
  | some c =>
    obtain ⟨l, hl⟩ := List.getLast?_eq_some_iff.mp hlast
    show z.before.dropLast ++ c :: z.behind = z.before ++ z.behind
    rw [hl, List.dropLast_concat, List.append_assoc, List.singleton_append]

theorem length_before_left : z.left.before.length = z.before.length - 1 := by
  unfold left
  cases hlast : z.before.getLast? with
  | none =>
    rw [List.getLast?_eq_none_iff.mp hlast]
    rfl
  | some c => exact List.length_dropLast

@[simp] theorem text_right : z.right.text = z.text := by
  unfold right
  cases hbehind : z.behind with
  | nil => rfl
  | cons c behind =>
    show z.before ++ [c] ++ behind = z.before ++ z.behind
    rw [hbehind, List.append_assoc, List.singleton_append]

theorem length_before_right :
    z.right.before.length =
      if z.before.length < z.text.length then z.before.length + 1 else z.text.length := by
  unfold right
  cases hbehind : z.behind with
  | nil =>
    rw [length_text, hbehind, List.length_nil, if_neg (by omega), Nat.add_zero]
  | cons c behind =>
    rw [length_text, hbehind, List.length_cons, if_pos (by omega), List.length_append]
    rfl

end Zipper

end Common

end Radare
