import Mathlib.Data.List.Nodup
import Mathlib.Data.Tree.Basic
import Mathlib.Order.Defs.Unbundled
import Mathlib.Tactic.Common
/-!
# Search trees

A tree is read from left to right (`inorder`), and it is one to search in if what is
left of a node is in front of it, and what is right of it behind (`Ordered`). That is
to say that it is read in order (`ordered_iff`).

One more is put in as a leaf (`plant`), and it stays one to search in. The node furthest
to the left is taken out (`unleft`): it comes first, and the rest is read as it was. So it
may stand for a root that is taken out (`unroot`).
-/

namespace Radare.Common

open BinaryTree

variable {α : Type*} {R : α → α → Prop} {x y : α} {t l r : BinaryTree α}

/-- The tree from left to right. -/
def inorder : BinaryTree α → List α
  | nil => []
  | node x l r => inorder l ++ x :: inorder r

@[simp] theorem inorder_nil : inorder (nil : BinaryTree α) = [] := rfl

@[simp] theorem inorder_node : inorder (node x l r) = inorder l ++ x :: inorder r := rfl

/-- What is left of a node is in front of it, and what is right of it behind. -/
def Ordered (R : α → α → Prop) : BinaryTree α → Prop
  | nil => True
  | node x l r =>
    Ordered R l ∧ Ordered R r ∧ (∀ y ∈ inorder l, R y x) ∧ ∀ y ∈ inorder r, R x y

/-- **A search tree is read in order.** -/
theorem ordered_iff [IsTrans α R] : Ordered R t ↔ (inorder t).Pairwise R := by
  induction t with
  | nil => exact iff_of_true trivial List.Pairwise.nil
  | node x l r ihl ihr =>
    rw [Ordered, ihl, ihr, inorder_node, List.pairwise_append, List.pairwise_cons]
    constructor
    · rintro ⟨hl, hr, hlx, hxr⟩
      refine ⟨hl, ⟨hxr, hr⟩, fun y hy z hz => ?_⟩
      obtain rfl | hz := List.mem_cons.mp hz
      · exact hlx y hy
      · exact trans_of R (hlx y hy) (hxr z hz)
    · rintro ⟨hl, ⟨hxr, hr⟩, hacross⟩
      exact ⟨hl, hr, fun y hy => hacross y hy x List.mem_cons_self, hxr⟩

section Insert

variable (R) [DecidableRel R]

/-- One more, as a leaf, where none is found that is neither in front of it nor behind. -/
def plant (x : α) : BinaryTree α → BinaryTree α
  | nil => node x nil nil
  | node y l r =>
    if R x y then node y (plant x l) r
    else if R y x then node y l (plant x r)
    else node y l r

variable {R}

/-- Nothing else is in it then. -/
theorem mem_inorder_plant (h : y ∈ inorder (plant R x t)) : y = x ∨ y ∈ inorder t := by
  induction t with
  | nil => exact .inl (List.mem_singleton.mp h)
  | node z l r ihl ihr =>
    rw [plant] at h
    split_ifs at h
    · obtain h | h := List.mem_append.mp h
      · exact (ihl h).imp_right fun h => List.mem_append_left _ h
      · exact .inr (List.mem_append_right _ h)
    · obtain h | h := List.mem_append.mp h
      · exact .inr (List.mem_append_left _ h)
      · obtain rfl | h := List.mem_cons.mp h
        · exact .inr (List.mem_append_right _ List.mem_cons_self)
        · exact (ihr h).imp_right fun h => List.mem_append_right _ (List.mem_cons_of_mem _ h)
    · exact .inr h

/-- **A search tree stays one.** -/
theorem Ordered.plant (h : Ordered R t) : Ordered R (plant R x t) := by
  induction t with
  | nil => exact ⟨trivial, trivial, fun _ h => absurd h List.not_mem_nil,
      fun _ h => absurd h List.not_mem_nil⟩
  | node z l r ihl ihr =>
    obtain ⟨hl, hr, hlz, hzr⟩ := h
    rw [Common.plant]
    split_ifs with hxz hzx
    · refine ⟨ihl hl, hr, fun y hy => ?_, hzr⟩
      obtain rfl | hy := mem_inorder_plant hy
      · exact hxz
      · exact hlz y hy
    · refine ⟨hl, ihr hr, hlz, fun y hy => ?_⟩
      obtain rfl | hy := mem_inorder_plant hy
      · exact hzx
      · exact hzr y hy
    · exact ⟨hl, hr, hlz, hzr⟩

end Insert

/-- The node furthest to the left of a tree, and the tree without it. -/
def unleft : α → BinaryTree α → BinaryTree α → α × BinaryTree α
  | x, nil, r => (x, r)
  | x, node y l r', r => ((unleft y l r').1, node x (unleft y l r').2 r)

/-- **It comes first, and the rest is read as it was.** -/
theorem inorder_unleft (x : α) (l r : BinaryTree α) :
    (unleft x l r).1 :: inorder (unleft x l r).2 = inorder (node x l r) := by
  induction l generalizing x r with
  | nil => rfl
  | node y l r' ihl _ =>
    rw [unleft, inorder_node, ← List.cons_append, ihl]
    rfl

/-- The tree without its root. -/
def unroot : BinaryTree α → BinaryTree α
  | nil => nil
  | node _ l nil => l
  | node _ nil r => r
  | node _ l (node z rl rr) => node (unleft z rl rr).1 l (unleft z rl rr).2

/-- **Nothing else is lost.** -/
theorem inorder_unroot (x : α) (l r : BinaryTree α) :
    inorder (unroot (node x l r)) = inorder l ++ inorder r := by
  cases r with
  | nil => rw [unroot, inorder_nil, List.append_nil]
  | node z rl rr =>
    cases l with
    | nil => rfl
    | node y ll lr => exact congrArg (inorder (node y ll lr) ++ ·) (inorder_unleft z rl rr)

end Radare.Common
