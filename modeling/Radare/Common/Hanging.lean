import Mathlib.Logic.Function.Basic
import Radare.Common.SearchTree
/-!
# Trees hung in a memory

Nodes with two links, at places of a memory. From a link hangs a tree if the nodes of
the tree are at the places it says and linked as it says (`Hangs`), and it is hung there
if no place is in it twice (`Hung`). The memory then says which tree it is
(`Hangs.unique`), and what is elsewhere in the memory does not matter (`Hangs.congr`).
-/

namespace Radare.Common

open BinaryTree

variable {ι β : Type*}

/-- A node, and its links. -/
structure TreeNode (ι β : Type*) where
  load : β
  left : Option ι
  right : Option ι

/-- The memory of the nodes. -/
abbrev Nodes (ι β : Type*) := ι → Option (TreeNode ι β)

variable {m m' : Nodes ι β} {p p' : Option ι} {t t' l r : BinaryTree (ι × β)} {x : ι × β} {a : ι}
  {n : TreeNode ι β}

/-- The tree hangs from a link. -/
def Hangs (m : Nodes ι β) : Option ι → BinaryTree (ι × β) → Prop
  | p, nil => p = none
  | p, node x l r => p = some x.1 ∧
      ∃ pl pr, m x.1 = some ⟨x.2, pl, pr⟩ ∧ Hangs m pl l ∧ Hangs m pr r

/-- The places of its nodes. -/
def sites (t : BinaryTree (ι × β)) : List ι := (inorder t).map Prod.fst

/-- What they keep. -/
def loads (t : BinaryTree (ι × β)) : List β := (inorder t).map Prod.snd

@[simp] theorem sites_nil : sites (nil : BinaryTree (ι × β)) = [] := rfl

@[simp] theorem sites_node : sites (node x l r) = sites l ++ x.1 :: sites r := by
  rw [sites, inorder_node, List.map_append, List.map_cons, sites, sites]

@[simp] theorem loads_nil : loads (nil : BinaryTree (ι × β)) = [] := rfl

@[simp] theorem loads_node : loads (node x l r) = loads l ++ x.2 :: loads r := by
  rw [loads, inorder_node, List.map_append, List.map_cons, loads, loads]

theorem mem_sites_node {b : ι} :
    b ∈ sites (node x l r) ↔ b ∈ sites l ∨ b = x.1 ∨ b ∈ sites r := by
  rw [sites_node, List.mem_append, List.mem_cons]

/-- **The memory says which tree hangs from a link.** -/
theorem Hangs.unique (h : Hangs m p t) (h' : Hangs m p t') : t = t' := by
  induction t generalizing p t' with
  | nil =>
    cases t' with
    | nil => rfl
    | node x' l' r' => exact absurd (h'.1.symm.trans h) (Option.some_ne_none _)
  | node x l r ihl ihr =>
    cases t' with
    | nil => exact absurd (h.1.symm.trans h') (Option.some_ne_none _)
    | node x' l' r' =>
      obtain ⟨rfl, pl, pr, hx, hl, hr⟩ := h
      obtain ⟨hp, pl', pr', hx', hl', hr'⟩ := h'
      obtain ⟨a, d⟩ := x
      obtain ⟨a', d'⟩ := x'
      obtain rfl : a = a' := Option.some.inj hp
      obtain ⟨rfl, rfl, rfl⟩ := (TreeNode.mk.injEq ..).mp (Option.some.inj (hx.symm.trans hx'))
      rw [ihl hl hl', ihr hr hr']

/-- **What is elsewhere does not matter.** -/
theorem Hangs.congr (h : Hangs m p t) (hm : ∀ b ∈ sites t, m' b = m b) : Hangs m' p t := by
  induction t generalizing p with
  | nil => exact h
  | node x l r ihl ihr =>
    obtain ⟨hp, pl, pr, hx, hl, hr⟩ := h
    refine ⟨hp, pl, pr, ?_, ihl hl fun b hb => ?_, ihr hr fun b hb => ?_⟩
    · rw [hm x.1 (mem_sites_node.mpr (.inr (.inl rfl))), hx]
    · exact hm b (mem_sites_node.mpr (.inl hb))
    · exact hm b (mem_sites_node.mpr (.inr (.inr hb)))

/-- The nodes of a tree are there. -/
theorem Hangs.isSome (h : Hangs m p t) (ha : a ∈ sites t) : (m a).isSome := by
  induction t generalizing p with
  | nil => exact absurd ha List.not_mem_nil
  | node x l r ihl ihr =>
    obtain ⟨-, pl, pr, hx, hl, hr⟩ := h
    obtain ha | rfl | ha := mem_sites_node.mp ha
    · exact ihl hl ha
    · rw [hx]
      rfl
    · exact ihr hr ha

/-- The link leads to the root. -/
theorem Hangs.root (h : Hangs m (some a) t) : ∃ d l r, t = node (a, d) l r := by
  cases t with
  | nil => exact absurd h (Option.some_ne_none a)
  | node x l r =>
    obtain rfl : a = x.1 := Option.some.inj h.1
    exact ⟨x.2, l, r, rfl⟩

theorem Hangs.nil_of_none (h : Hangs m none t) : t = nil := by
  cases t with
  | nil => rfl
  | node x l r => exact absurd h.1.symm (Option.some_ne_none x.1)

/-- The tree is hung from a link, with its nodes apart. -/
structure Hung (m : Nodes ι β) (p : Option ι) (t : BinaryTree (ι × β)) : Prop where
  hangs : Hangs m p t
  apart : (sites t).Nodup

theorem hung_nil : Hung m none nil := ⟨rfl, List.nodup_nil⟩

namespace Hung

/-- A tree is its root and two trees apart from it and from each other. -/
theorem node_iff : Hung m p (node x l r) ↔
    p = some x.1 ∧ ∃ pl pr, m x.1 = some ⟨x.2, pl, pr⟩ ∧ Hung m pl l ∧ Hung m pr r ∧
      x.1 ∉ sites l ∧ x.1 ∉ sites r ∧ (sites l).Disjoint (sites r) := by
  have happart : (sites (node x l r)).Nodup ↔ ((sites l).Nodup ∧ (sites r).Nodup) ∧
      x.1 ∉ sites l ∧ x.1 ∉ sites r ∧ (sites l).Disjoint (sites r) := by
    rw [sites_node, List.nodup_middle, List.nodup_cons, List.mem_append, not_or,
      List.nodup_append']
    exact ⟨fun ⟨⟨hl, hr⟩, hal, har, hlr⟩ => ⟨⟨hal, har⟩, hl, hr, hlr⟩,
      fun ⟨⟨hal, har⟩, hl, hr, hlr⟩ => ⟨⟨hl, hr⟩, hal, har, hlr⟩⟩
  constructor
  · rintro ⟨⟨hp, pl, pr, hx, hl, hr⟩, hapart⟩
    obtain ⟨⟨hal, har⟩, hxs⟩ := happart.mp hapart
    exact ⟨hp, pl, pr, hx, ⟨hl, hal⟩, ⟨hr, har⟩, hxs⟩
  · rintro ⟨hp, pl, pr, hx, hl, hr, hxs⟩
    exact ⟨⟨hp, pl, pr, hx, hl.hangs, hr.hangs⟩, happart.mpr ⟨⟨hl.apart, hr.apart⟩, hxs⟩⟩

theorem congr (h : Hung m p t) (hm : ∀ b ∈ sites t, m' b = m b) : Hung m' p t :=
  ⟨h.hangs.congr hm, h.apart⟩

end Hung

section Links

variable [DecidableEq ι]

/-- `left = p` of the node at a place. -/
def setLeft (m : Nodes ι β) (a : ι) (p : Option ι) : Option (Nodes ι β) :=
  (m a).map fun n => Function.update m a (some { n with left := p })

/-- `right = p` of the node at a place. -/
def setRight (m : Nodes ι β) (a : ι) (p : Option ι) : Option (Nodes ι β) :=
  (m a).map fun n => Function.update m a (some { n with right := p })

theorem setLeft_eq (h : m a = some n) :
    setLeft m a p = some (Function.update m a (some { n with left := p })) := by
  rw [setLeft, h]
  rfl

theorem setRight_eq (h : m a = some n) :
    setRight m a p = some (Function.update m a (some { n with right := p })) := by
  rw [setRight, h]
  rfl

/-- A tree without a place does not see what is put there. -/
theorem Hung.update (h : Hung m p t) (ha : a ∉ sites t) (o : Option (TreeNode ι β)) :
    Hung (Function.update m a o) p t :=
  h.congr fun b hb => Function.update_of_ne (fun heq : b = a => ha (heq ▸ hb)) o m

end Links

end Radare.Common
