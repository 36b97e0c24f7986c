import Mathlib.Data.Int.Notation
import Mathlib.Order.Lattice
import Mathlib.Order.Nat
import Radare.Common.Hanging
/-!
# Binary trees

The trees of `btree.c` are nodes in a memory, where an access to what is not there has no
result. The loops and the recursions go down the links, no further than `fuel` of them.
-/

namespace Radare

open Common

variable {ι α κ : Type} [DecidableEq ι]

/-- What a `struct btree_node` has beside its links. -/
structure BtreeLoad (α : Type) where
  data : α
  hits : ℤ

/-- The memory with the nodes. -/
abbrev BtreeMem (ι α : Type) := Nodes ι (BtreeLoad α)

/-- The loop of `btree_remove`: `f` and `rp`. -/
def walkLeft (m : BtreeMem ι α) : ℕ → ι → ι → Option (ι × ι)
  | 0, _, _ => none
  | fuel + 1, f, rp => do
    let n ← m rp
    match n.left with
    | some left => walkLeft m fuel rp left
    | none => some (f, rp)

/-- `btree_remove`. -/
def btreeRemove (fuel : ℕ) (m : BtreeMem ι α) : Option ι → Option (Option ι × BtreeMem ι α)
  | none => some (none, m)
  | some p => do
    let n ← m p
    let (rp, m) ← match n.right, n.left with
      | some right, some left => do
        let (f, rp) ← walkLeft m fuel p right
        if f ≠ p then
          let r ← m rp
          let m ← setLeft m f r.right
          let n ← m p
          let m ← setRight m rp n.right
          let m ← setLeft m rp n.left
          some (some rp, m)
        else
          let m ← setLeft m rp (some left)
          some (some rp, m)
      | some right, none => some (some right, m)
      | none, left => some (left, m)
    some (rp, Function.update m p none)

/-- `btree_search`. -/
def btreeSearch (cmp : α → α → ℤ) (m : BtreeMem ι α) (x : α) (parent : Bool) :
    ℕ → Option ι → Option (Option ι)
  | 0, _ => none
  | _ + 1, none => some none
  | fuel + 1, some root => do
    let n ← m root
    let p ← (if cmp x n.load.data < 0 then btreeSearch cmp m x parent fuel n.left
      else if 0 < cmp x n.load.data then btreeSearch cmp m x parent fuel n.right
      else some (some root))
    some (p.map fun p => if parent then root else p)

/-- `btree_del`. -/
def btreeDel (cmp : α → α → ℤ) (fuel : ℕ) (m : BtreeMem ι α) (proot : Option ι) (x : α) :
    Option (ℤ × BtreeMem ι α) := do
  match ← btreeSearch cmp m x true fuel proot with
  | some p =>
    let n ← m p
    let (right, m) ← btreeRemove fuel m n.left
    let m ← setRight m p right
    some (1, m)
  | none => some (0, m)

/-- `btree_get`. -/
def btreeGet (cmp : α → α → ℤ) (fuel : ℕ) (m : BtreeMem ι α) (proot : Option ι) (x : α) :
    Option (Option α × BtreeMem ι α) := do
  match ← btreeSearch cmp m x false fuel proot with
  | some p =>
    let n ← m p
    let load := { n.load with hits := n.load.hits + 1 }
    some (some n.load.data, Function.update m p (some { n with load := load }))
  | none => some (none, m)

/-- `btree_insert`. -/
def btreeInsert (cmp : α → α → ℤ) : ℕ → BtreeMem ι α → ι → ι → Option (BtreeMem ι α)
  | 0, _, _, _ => none
  | fuel + 1, m, t, p => do
    let np ← m p
    let nt ← m t
    let ret := cmp np.load.data nt.load.data
    if ret < 0 then
      match nt.left with
      | some left => btreeInsert cmp fuel m left p
      | none => setLeft m t (some p)
    else if 0 < ret then
      match nt.right with
      | some right => btreeInsert cmp fuel m right p
      | none => setRight m t (some p)
    else some m

/-- `btree_add`, with the node `malloc` gives. -/
def btreeAdd (cmp : α → α → ℤ) (fuel : ℕ) (m : BtreeMem ι α) (root : Option ι) (p : ι) (e : α) :
    Option (Option ι × BtreeMem ι α) :=
  let m := Function.update m p (some ⟨⟨e, 0⟩, none, none⟩)
  match root with
  | none => some (some p, m)
  | some t => (btreeInsert cmp fuel m t p).map fun m => (some t, m)

/-- A total order to compare by, as that of some keys. -/
structure BtreeCmp (α κ : Type) [LinearOrder κ] where
  cmp : α → α → ℤ
  key : α → κ
  neg_iff : ∀ a b, cmp a b < 0 ↔ key a < key b
  pos_iff : ∀ a b, 0 < cmp a b ↔ key b < key a

variable [LinearOrder κ]

namespace BtreeCmp

/-- One node is in front of another. -/
def Less (ord : BtreeCmp α κ) (x y : ι × BtreeLoad α) : Prop := ord.key x.2.data < ord.key y.2.data

instance (ord : BtreeCmp α κ) : IsTrans (ι × BtreeLoad α) ord.Less :=
  ⟨fun _ _ _ hxy hyz => lt_trans hxy hyz⟩

/-- The keys of a tree, from left to right. -/
def keys (ord : BtreeCmp α κ) (t : BinaryTree (ι × BtreeLoad α)) : List κ :=
  (inorder t).map fun x => ord.key x.2.data

/-- A search tree. -/
def SearchTree (ord : BtreeCmp α κ) (t : BinaryTree (ι × BtreeLoad α)) : Prop :=
  Ordered ord.Less t

variable {ord : BtreeCmp α κ} {t l r : BinaryTree (ι × BtreeLoad α)} {x : ι × BtreeLoad α}

omit [DecidableEq ι] in
theorem keys_node :
    ord.keys (.node x l r) = ord.keys l ++ ord.key x.2.data :: ord.keys r := by
  rw [keys, inorder_node, List.map_append, List.map_cons, keys, keys]

omit [DecidableEq ι] in
/-- The keys of a search tree are in order. -/
theorem searchTree_iff : ord.SearchTree t ↔ (ord.keys t).Pairwise (· < ·) := by
  rw [SearchTree, ordered_iff, keys, List.pairwise_map]
  rfl

end BtreeCmp

/-- The order of the numbers. -/
def natCmp : BtreeCmp ℕ ℕ where
  cmp a b := a - b
  key := id
  neg_iff a b := by rw [id, id]; omega
  pos_iff a b := by rw [id, id]; omega

end Radare
