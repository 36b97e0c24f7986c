import Radare.Btree.Built
import Radare.Btree.Remove
/-!
# Deleting from a binary tree

`btree_del` looks for the parent of the key's node, and gets the root of the whole tree, at
each of whose levels `btree_search` answers with its own node. It puts what is left of the
left subtree, without its root, in the place of the right one.
-/

namespace Radare

open Common BinaryTree

variable {ι α κ : Type} [DecidableEq ι] [LinearOrder κ] {ord : BtreeCmp α κ} {m : BtreeMem ι α}
  {p : Option ι} {t l r : BinaryTree (ι × BtreeLoad α)} {x : ι × BtreeLoad α} {fuel : ℕ} {d : α}

/-- What is to be said of `btree_del`: it tells if the key was there, and leaves a search tree
with the other keys, which `btree_get` finds, and no others. -/
def DelRight (ord : BtreeCmp α κ) (fuel : ℕ) (m : BtreeMem ι α) (p : Option ι)
    (t : BinaryTree (ι × BtreeLoad α)) (d : α) : Prop :=
  ∃ m' t', btreeDel ord.cmp fuel m p d =
      some (if ord.key d ∈ ord.keys t then 1 else 0, m') ∧
    Hung m' p t' ∧ ord.SearchTree t' ∧ ord.keys t' = (ord.keys t).filter (· ≠ ord.key d) ∧
    ∀ e, (btreeGet ord.cmp fuel m' p e).map (fun got => got.1.map ord.key) =
      some (if ord.key e ∈ ord.keys t' then some (ord.key e) else none)

/-- The key is not there, or alone on the right of a root that has nothing on its left. -/
def DelSafe (ord : BtreeCmp α κ) (t : BinaryTree (ι × BtreeLoad α)) (d : α) : Prop :=
  ord.key d ∈ ord.keys t → ∃ x y, t = node x nil (node y nil nil) ∧ ord.key y.2.data = ord.key d

theorem btreeDel_absent (ht : Hangs m p t) (hs : ord.SearchTree t) (hfuel : t.height < fuel)
    (hd : ord.key d ∉ ord.keys t) : btreeDel ord.cmp fuel m p d = some (0, m) := by
  obtain ⟨q, hq, hmem, -⟩ := btreeSearch_spec (d := d) true ht hs hfuel
  cases q with
  | none => rw [btreeDel, hq]; rfl
  | some a => exact absurd (hmem.mp rfl) hd

/-- **What is deleted is on the right of the root, and the root on its left.** -/
theorem btreeDel_present {pl pr : Option ι} (ht : Hung m p (node x l r))
    (hx : m x.1 = some ⟨x.2, pl, pr⟩) (hl : Hung m pl l) (hxl : x.1 ∉ sites l)
    (hs : ord.SearchTree (node x l r)) (hfuel : (node x l r).height < fuel)
    (hd : ord.key d ∈ ord.keys (node x l r)) :
    ∃ m₁ p', Removed m m₁ pl p' l ∧ btreeDel ord.cmp fuel m p d =
      some (1, Function.update m₁ x.1 (some ⟨x.2, pl, p'⟩)) := by
  obtain ⟨q, hq, hmem, hfound⟩ := btreeSearch_spec (d := d) true ht.hangs hs hfuel
  obtain ⟨a, rfl⟩ := Option.isSome_iff_exists.mp (hmem.mpr hd)
  obtain rfl : x.1 = a := Option.some.inj (ht.hangs.1.symm.trans (hfound.root rfl a rfl))
  have hheight : l.height ≤ fuel := by
    simp only [height] at hfuel
    omega
  obtain ⟨p', m₁, hrun, hremoved⟩ := btreeRemove_spec hl hheight
  have hx' : m₁ x.1 = some ⟨x.2, pl, pr⟩ := (hremoved.frame x.1 hxl).trans hx
  refine ⟨m₁, p', hremoved, ?_⟩
  rw [btreeDel, hq, Option.bind_eq_bind, Option.bind_some]
  dsimp only
  rw [hx, Option.bind_eq_bind, Option.bind_some]
  dsimp only
  rw [hrun, Option.bind_eq_bind, Option.bind_some]
  dsimp only
  rw [setRight_eq hx']
  rfl

omit [DecidableEq ι] in
/-- A search tree with one key is a node alone. -/
theorem alone_of_keys {k : κ} (hs : ord.SearchTree t) (hk : ∀ k' ∈ ord.keys t, k' = k)
    (hmem : k ∈ ord.keys t) : ∃ y, t = node y nil nil ∧ ord.key y.2.data = k := by
  cases t with
  | nil => exact absurd hmem List.not_mem_nil
  | node y l r =>
    obtain ⟨-, -, hly, hyr⟩ := hs
    have hkey : ∀ z ∈ inorder (node y l r), ord.key z.2.data = k := fun z hz =>
      hk _ (List.mem_map_of_mem hz)
    have hy := hkey y (List.mem_append_right _ List.mem_cons_self)
    refine ⟨y, ?_, hy⟩
    cases l with
    | node z ll lr =>
      have hz : z ∈ inorder (node z ll lr) := List.mem_append_right _ List.mem_cons_self
      exact absurd ((hkey z (List.mem_append_left _ hz)).trans hy.symm) (ne_of_lt (hly z hz))
    | nil =>
      cases r with
      | node z rl rr =>
        have hz : z ∈ inorder (node z rl rr) := List.mem_append_right _ List.mem_cons_self
        exact absurd (hy.trans (hkey z (List.mem_cons_of_mem _ hz)).symm) (ne_of_lt (hyr z hz))
      | nil => rfl

/-- Where the root has a left subtree, `btree_del` frees that subtree's root and leaves it
linked. -/
theorem not_hung_of_left {m₁ m' : BtreeMem ι α} {pl p' pr : Option ι}
    {t' : BinaryTree (ι × BtreeLoad α)} (hremoved : Removed m m₁ pl p' l) (hl : Hung m pl l)
    (hxl : x.1 ∉ sites l) (hne : l ≠ nil)
    (hm' : m' = Function.update m₁ x.1 (some ⟨x.2, pl, pr⟩)) : ¬ Hung m' (some x.1) t' := by
  intro ht'
  subst hm'
  obtain ⟨load, l', r', rfl⟩ := ht'.hangs.root
  obtain ⟨-, pl', pr', hx, hl', -⟩ := ht'.hangs
  rw [Function.update_self] at hx
  obtain ⟨-, rfl, -⟩ := (TreeNode.mk.injEq ..).mp (Option.some.inj hx)
  cases l with
  | nil => exact hne rfl
  | node y ll lr =>
    obtain rfl : pl = some y.1 := hl.hangs.1
    have hyx : y.1 ≠ x.1 := fun heq => hxl (heq ▸ mem_sites_node.mpr (.inr (.inl rfl)))
    obtain ⟨load', ll', lr', rfl⟩ := hl'.root
    obtain ⟨-, pll, plr, hy, -⟩ := hl'
    rw [Function.update_of_ne hyx, hremoved.free y.1 rfl] at hy
    exact Option.some_ne_none _ hy.symm

omit [DecidableEq ι] in
/-- The root is all that should be left just where the key is the only one on its right. -/
theorem keys_alone_iff (hs : ord.SearchTree (node x nil r))
    (hd : ord.key d ∈ ord.keys (node x nil r)) :
    ord.keys (node x nil nil) = (ord.keys (node x nil r)).filter (· ≠ ord.key d) ↔
      ∃ y, r = node y nil nil ∧ ord.key y.2.data = ord.key d := by
  have hmem : ∀ k ∈ ord.keys r, ord.key x.2.data < k := by
    intro k hk
    obtain ⟨y, hy, rfl⟩ := List.mem_map.mp hk
    exact hs.2.2.2 y hy
  rw [BtreeCmp.keys_node] at hd ⊢
  rw [BtreeCmp.keys_node]
  change [ord.key x.2.data] = (ord.key x.2.data :: ord.keys r).filter (· ≠ ord.key d) ↔ _
  constructor
  · intro heq
    have hx : ord.key x.2.data ≠ ord.key d := by
      have hself : ord.key x.2.data ∈ [ord.key x.2.data] := List.mem_singleton_self _
      rw [heq, List.mem_filter] at hself
      exact of_decide_eq_true hself.2
    rw [List.filter_cons, if_pos (decide_eq_true hx), List.cons.injEq, eq_comm (a := []),
      List.filter_eq_nil_iff] at heq
    have hd' : ord.key d ∈ ord.keys r := (List.mem_cons.mp hd).resolve_left hx.symm
    exact alone_of_keys hs.2.1 (fun k hk => by
      simpa using heq.2 k hk) hd'
  · rintro ⟨y, rfl, hy⟩
    have hx : ord.key x.2.data ≠ ord.key d := ne_of_lt (hy ▸ hmem _ List.mem_cons_self)
    rw [List.filter_cons, if_pos (decide_eq_true hx)]
    change _ = ord.key x.2.data :: [ord.key y.2.data].filter (· ≠ ord.key d)
    rw [hy, List.filter_cons_of_neg (by simp), List.filter_nil]

theorem not_delRight_of_left (ht : Hung m p (node x l r)) (hs : ord.SearchTree (node x l r))
    (hfuel : (node x l r).height < fuel) (hd : ord.key d ∈ ord.keys (node x l r)) (hne : l ≠ nil) :
    ¬ DelRight ord fuel m p (node x l r) d := by
  rintro ⟨m', t', hrun, ht', -⟩
  obtain ⟨rfl, pl, pr, hx, hl, hr, hxl, -⟩ := Hung.node_iff.mp ht
  obtain ⟨m₁, p', hremoved, hdel⟩ := btreeDel_present ht hx hl hxl hs hfuel hd
  rw [hdel] at hrun
  exact not_hung_of_left hremoved hl hxl hne (Prod.mk.inj (Option.some.inj hrun)).2.symm ht'

/-- Where it has none, the root is left alone. -/
theorem delRight_iff_of_right (ht : Hung m p (node x nil r)) (hs : ord.SearchTree (node x nil r))
    (hfuel : (node x nil r).height < fuel) (hd : ord.key d ∈ ord.keys (node x nil r)) :
    DelRight ord fuel m p (node x nil r) d ↔
      ∃ y, r = node y nil nil ∧ ord.key y.2.data = ord.key d := by
  obtain ⟨rfl, pl, pr, hx, hl, hr, hxl, -⟩ := Hung.node_iff.mp ht
  obtain ⟨m₁, p', hremoved, hdel⟩ := btreeDel_present ht hx hl hxl hs hfuel hd
  obtain rfl : pl = none := hl.hangs
  obtain rfl : p' = none := hremoved.hung.hangs
  have halone : Hung (Function.update m₁ x.1 (some ⟨x.2, none, none⟩)) (some x.1)
      (node x nil nil) :=
    ⟨⟨rfl, none, none, Function.update_self .., rfl, rfl⟩, List.nodup_singleton x.1⟩
  have hs' : ord.SearchTree (node x nil nil) :=
    BtreeCmp.searchTree_iff.mpr (List.pairwise_singleton _ _)
  have hfuel' : (node x nil nil).height < fuel := by
    simp only [height] at hfuel ⊢
    omega
  rw [DelRight, if_pos hd, hdel, ← keys_alone_iff hs hd]
  constructor
  · rintro ⟨m', t', heq, ht', -, hkeys, -⟩
    obtain rfl := (Prod.mk.inj (Option.some.inj heq)).2
    obtain rfl := ht'.hangs.unique halone.hangs
    exact hkeys
  · intro hkeys
    exact ⟨_, _, rfl, halone, hs', hkeys, fun e => btreeGet_spec halone.hangs hs' hfuel'⟩

/-- **`btree_del` is right just where the key is not in the tree, or is alone on the right of a
root that has nothing on its left.** -/
theorem btreeDel_right_iff (hbuilt : Built ord m p) (ht : Hung m p t) (hfuel : t.height < fuel) :
    DelRight ord fuel m p t d ↔ DelSafe ord t d := by
  obtain ⟨t₀, ht₀, hs⟩ := hbuilt.searchTree
  obtain rfl := ht.hangs.unique ht₀.hangs
  by_cases hd : ord.key d ∈ ord.keys t
  · cases t with
    | nil => exact absurd hd List.not_mem_nil
    | node x l r =>
      by_cases hne : l = nil
      · subst hne
        rw [delRight_iff_of_right ht hs hfuel hd]
        constructor
        · rintro ⟨y, rfl, hy⟩ -
          exact ⟨x, y, rfl, hy⟩
        · intro hsafe
          obtain ⟨x', y, heq, hy⟩ := hsafe hd
          exact ⟨y, ((BinaryTree.node.injEq ..).mp heq).2.2, hy⟩
      · refine iff_of_false (not_delRight_of_left ht hs hfuel hd hne) fun hsafe => ?_
        obtain ⟨x', y, heq, -⟩ := hsafe hd
        exact hne ((BinaryTree.node.injEq ..).mp heq).2.1
  · refine iff_of_true ⟨m, t, ?_, ht, hs, ?_, fun e => btreeGet_spec ht.hangs hs hfuel⟩
      fun h => absurd h hd
    · rw [btreeDel_absent ht.hangs hs hfuel hd, if_neg hd]
    · refine (List.filter_eq_self.mpr fun k hk => decide_eq_true ?_).symm
      exact fun heq => hd (heq ▸ hk)

/-- 9 is deleted from under 5. -/
theorem btreeDel_right_nine : ∃ m : BtreeMem ℕ ℕ, Built natCmp m (some 0) ∧
    DelRight natCmp 3 m (some 0) (node (0, ⟨5, 0⟩) nil (node (1, ⟨9, 0⟩) nil nil)) 9 := by
  have hbuilt : Built natCmp _ (some 0) := .add (a := 1) 3 9
    (.add (a := 0) 3 5 (.empty fun _ => none) rfl rfl) rfl rfl
  refine ⟨_, hbuilt, (btreeDel_right_iff hbuilt ?_ (by decide)).mpr fun _ => ⟨_, _, rfl, rfl⟩⟩
  exact ⟨⟨rfl, _, _, rfl, rfl, rfl, _, _, rfl, rfl, rfl⟩, by decide⟩

/-- Deleting 2 from 2, 5 and 9 takes 9 out, and 2 is free and still linked. -/
theorem btreeDel_wrong :
    let t : BinaryTree (ℕ × BtreeLoad ℕ) :=
      node (0, ⟨5, 0⟩) (node (1, ⟨2, 0⟩) nil nil) (node (2, ⟨9, 0⟩) nil nil)
    ∃ m, Built natCmp m (some 0) ∧ Hung m (some 0) t ∧ ¬ DelRight natCmp 3 m (some 0) t 2 := by
  refine ⟨_, .add (a := 2) 3 9 (.add (a := 1) 3 2
    (.add (a := 0) 3 5 (.empty fun _ => none) rfl rfl) rfl rfl) rfl rfl,
    (and_iff_left_of_imp fun ht => ?_).mpr ?_⟩
  · exact not_delRight_of_left ht (BtreeCmp.searchTree_iff.mpr (by decide)) (by decide) (by decide)
      nofun
  · exact ⟨⟨rfl, _, _, rfl, ⟨rfl, _, _, rfl, rfl, rfl⟩, rfl, _, _, rfl, rfl, rfl⟩, by decide⟩

end Radare
