import Radare.Btree.Model
/-!
# Taking the root out of a binary tree

`btree_remove` puts the leftmost node of the right subtree in the place of the root, and the
rest of that subtree where the node was: what is left is the tree without its root
(`btreeRemove_spec`). It is read as before, and so is a search tree.
-/

namespace Radare

open Common BinaryTree

variable {ι α κ : Type} {m : BtreeMem ι α} {p : Option ι} {t l r : BinaryTree (ι × BtreeLoad α)}
  {x : ι × BtreeLoad α} {f rp : ι} {n : TreeNode ι (BtreeLoad α)} {fuel : ℕ}

/-- The places of a tree are those of its leftmost node and of the rest. -/
theorem sites_unleft :
    (unleft x l r).1.1 :: sites (unleft x l r).2 = sites (node x l r) := by
  rw [sites, ← List.map_cons (f := Prod.fst), inorder_unleft, sites]

theorem walkLeft_some {left : ι} (h : m rp = some n) (hn : n.left = some left) :
    walkLeft m (fuel + 1) f rp = walkLeft m fuel rp left := by
  rw [walkLeft, h, Option.bind_eq_bind, Option.bind_some, hn]

theorem walkLeft_none (h : m rp = some n) (hn : n.left = none) :
    walkLeft m (fuel + 1) f rp = some (f, rp) := by
  rw [walkLeft, h, Option.bind_eq_bind, Option.bind_some, hn]

variable [DecidableEq ι]

/-- What the loop stops at: the leftmost node, and the node `f` it hangs from. With the rest
of the leftmost node's subtree hung there instead, the tree is without that node. -/
structure WalksTo (m : BtreeMem ι α) (x : ι × BtreeLoad α) (l r : BinaryTree (ι × BtreeLoad α))
    (f : ι) (pr : Option ι) : Prop where
  leftmost : m (unleft x l r).1.1 = some ⟨(unleft x l r).1.2, none, pr⟩
  mem : f ∈ sites (unleft x l r).2
  relinked : ∃ n, m f = some n ∧
    Hung (Function.update m f (some { n with left := pr })) (some x.1) (unleft x l r).2

/-- **The loop of `btree_remove`** -/
theorem walkLeft_spec (ht : Hung m (some x.1) (node x l r)) (hl : l ≠ nil)
    (hfuel : l.height < fuel) :
    ∃ pr g, walkLeft m fuel f x.1 = some (g, (unleft x l r).1.1) ∧ WalksTo m x l r g pr := by
  induction l generalizing x r f fuel with
  | nil => exact absurd rfl hl
  | node y ll lr ih _ =>
    obtain ⟨fuel, rfl⟩ := Nat.exists_eq_add_one_of_ne_zero (Nat.ne_zero_of_lt hfuel)
    obtain ⟨-, pl, pr, hx, hhl, hhr, hxl, hxr, hlr⟩ := Hung.node_iff.mp ht
    obtain ⟨rfl, pll, plr, hy, hhll, hhlr, hyl, hyr, hllr⟩ := Hung.node_iff.mp hhl
    rw [walkLeft_some hx rfl]
    by_cases hll : ll = nil
    · subst hll
      -- `y` is the leftmost node, and hangs from `x`
      obtain rfl : pll = none := hhll.hangs
      obtain ⟨fuel, rfl⟩ := Nat.exists_eq_add_one_of_ne_zero
        (n := fuel) (by rw [height] at hfuel; omega)
      refine ⟨plr, x.1, walkLeft_none hy rfl, hy, mem_sites_node.mpr (.inr (.inl rfl)), _, hx,
        Hung.node_iff.mpr ⟨rfl, plr, pr, Function.update_self .., ?_, ?_, ?_, hxr, ?_⟩⟩
      · exact hhlr.update (fun h => hxl (mem_sites_node.mpr (.inr (.inr h)))) _
      · exact hhr.update hxr _
      · exact fun h => hxl (mem_sites_node.mpr (.inr (.inr h)))
      · exact fun b hb => hlr (mem_sites_node.mpr (.inr (.inr hb)))
    · have hfuel' : ll.height < fuel := by
        rw [height] at hfuel
        omega
      obtain ⟨pr', g, hwalk, hleft, hmem, n, hn, hrest⟩ := ih hhl hll hfuel'
      have hsub : ∀ {b}, b ∈ sites (unleft y ll lr).2 → b ∈ sites (node y ll lr) := fun hb =>
        sites_unleft ▸ List.mem_cons_of_mem _ hb
      have hgx : x.1 ≠ g := fun heq => hxl (hsub (heq ▸ hmem))
      refine ⟨pr', g, hwalk, hleft, mem_sites_node.mpr (.inl hmem), n, hn,
        Hung.node_iff.mpr ⟨rfl, some y.1, pr, ?_, hrest, ?_, fun h => hxl (hsub h), hxr,
          fun b hb => hlr (hsub hb)⟩⟩
      · rw [Function.update_of_ne hgx, hx]
      · exact hhr.update (fun h => hlr (hsub hmem) h) _

section Shapes

variable {a left right : ι} {load d : BtreeLoad α} {pr : Option ι}

theorem btreeRemove_left {pl : Option ι} (ha : m a = some ⟨load, pl, none⟩) :
    btreeRemove fuel m (some a) = some (pl, Function.update m a none) := by
  rw [btreeRemove, ha]
  rfl

theorem btreeRemove_right (ha : m a = some ⟨load, none, some right⟩) :
    btreeRemove fuel m (some a) = some (some right, Function.update m a none) := by
  rw [btreeRemove, ha]
  rfl

/-- The right child has no left child. -/
theorem btreeRemove_child (ha : m a = some ⟨load, some left, some right⟩)
    (hwalk : walkLeft m fuel a right = some (a, rp)) (hrp : m rp = some n) :
    btreeRemove fuel m (some a) = some (some rp,
      Function.update (Function.update m rp (some { n with left := some left })) a none) := by
  rw [btreeRemove, ha]
  simp only [Option.bind_eq_bind, Option.bind_some, hwalk, ne_eq, not_true_eq_false, if_false,
    setLeft_eq hrp]

/-- The successor is further down. -/
theorem btreeRemove_deep {pll : Option ι} (ha : m a = some ⟨load, some left, some right⟩)
    (hwalk : walkLeft m fuel a right = some (f, rp)) (hrp : m rp = some ⟨d, pll, pr⟩)
    (hf : m f = some n) (hfa : f ≠ a) (hrpf : rp ≠ f) :
    btreeRemove fuel m (some a) = some (some rp,
      Function.update (Function.update (Function.update m f (some { n with left := pr })) rp
        (some ⟨d, some left, some right⟩)) a none) := by
  have ha' : Function.update m f (some { n with left := pr }) a =
      some ⟨load, some left, some right⟩ := by
    rw [Function.update_of_ne hfa.symm, ha]
  have hrp' : Function.update m f (some { n with left := pr }) rp = some ⟨d, pll, pr⟩ := by
    rw [Function.update_of_ne hrpf, hrp]
  rw [btreeRemove, ha]
  simp only [Option.bind_eq_bind, Option.bind_some, hwalk, ne_eq, hfa, not_false_eq_true, if_true,
    hrp, setLeft_eq hf, ha', setRight_eq hrp', setLeft_eq (Function.update_self ..),
    Function.update_idem]

end Shapes

/-- What `btree_remove` leaves: the tree without its root, which is free, and the rest of the
memory as it was. -/
structure Removed (m m' : BtreeMem ι α) (p p' : Option ι) (t : BinaryTree (ι × BtreeLoad α)) :
    Prop where
  hung : Hung m' p' (unroot t)
  frame : ∀ b ∉ sites t, m' b = m b
  free : ∀ a, p = some a → m' a = none

/-- The leftmost node `w` of the right subtree is put in the place of the root, over the
rest of that subtree. -/
theorem Removed.splice {m₁ : BtreeMem ι α} {w : ι × BtreeLoad α} {pl pr : Option ι}
    {rest : BinaryTree (ι × BtreeLoad α)} (hapart : (sites (node x l r)).Nodup)
    (hroot : unroot (node x l r) = node w l rest) (hsites : w.1 :: sites rest = sites r)
    (hl : Hung m₁ pl l) (hrest : Hung m₁ pr rest) (hframe : ∀ b ∉ sites r, m₁ b = m b) :
    Removed m (Function.update (Function.update m₁ w.1 (some ⟨w.2, pl, pr⟩)) x.1 none) (some x.1)
      (some w.1) (node x l r) := by
  rw [sites_node, List.nodup_middle, List.nodup_cons, List.mem_append, not_or,
    List.nodup_append'] at hapart
  obtain ⟨⟨hxl, hxr⟩, -, hr, hlr⟩ := hapart
  rw [← hsites] at hr hxr hlr
  have hwrest : w.1 ∉ sites rest := (List.nodup_cons.mp hr).1
  have hwl : w.1 ∉ sites l := fun h => hlr h List.mem_cons_self
  have hwx : w.1 ≠ x.1 := fun heq => hxr (heq ▸ List.mem_cons_self)
  refine ⟨?_, fun b hb => ?_, fun a ha => ?_⟩
  · rw [hroot]
    refine Hung.node_iff.mpr ⟨rfl, pl, pr, ?_, (hl.update hwl _).update hxl _,
      (hrest.update hwrest _).update (fun h => hxr (List.mem_cons_of_mem _ h)) _, hwl, hwrest,
      fun b hb hb' => hlr hb (List.mem_cons_of_mem _ hb')⟩
    rw [Function.update_of_ne hwx, Function.update_self]
  · have hbr : b ∉ sites r := fun h => hb (mem_sites_node.mpr (.inr (.inr h)))
    have hbx : b ≠ x.1 := fun heq => hb (mem_sites_node.mpr (.inr (.inl heq)))
    have hbw : b ≠ w.1 := fun heq => hbr (hsites ▸ heq ▸ List.mem_cons_self)
    rw [Function.update_of_ne hbx, Function.update_of_ne hbw, hframe b hbr]
  · rw [← Option.some.inj ha, Function.update_self]

/-- **`btree_remove` takes out the root and nothing else.** -/
theorem btreeRemove_spec (ht : Hung m p t) (hfuel : t.height ≤ fuel) :
    ∃ p' m', btreeRemove fuel m p = some (p', m') ∧ Removed m m' p p' t := by
  cases t with
  | nil =>
    obtain rfl : p = none := ht.hangs
    exact ⟨none, m, rfl, ht, fun b _ => rfl, fun a h => absurd h.symm (Option.some_ne_none a)⟩
  | node x l r =>
    obtain ⟨rfl, pl, pr, hx, hl, hr, hxl, hxr, hlr⟩ := Hung.node_iff.mp ht
    have hfree : ∀ a, some x.1 = some a → Function.update m x.1 none a = none := fun a h => by
      rw [← Option.some.inj h, Function.update_self]
    have hframe : ∀ b ∉ sites (node x l r), Function.update m x.1 none b = m b := fun b hb =>
      Function.update_of_ne (fun heq => hb (mem_sites_node.mpr (.inr (.inl heq)))) ..
    cases r with
    | nil =>
      obtain rfl : pr = none := hr.hangs
      exact ⟨pl, _, btreeRemove_left hx, hl.update hxl _, hframe, hfree⟩
    | node z rl rr =>
      obtain ⟨rfl, prl, prr, hz, hrl, hrr, -, hzr, -⟩ := Hung.node_iff.mp hr
      cases l with
      | nil =>
        obtain rfl : pl = none := hl.hangs
        exact ⟨some z.1, _, btreeRemove_right hx, hr.update hxr _, hframe, hfree⟩
      | node y ll lr =>
        obtain ⟨rfl, -⟩ := Hung.node_iff.mp hl
        have hfuel' : rl.height < fuel := by
          simp only [height] at hfuel
          omega
        by_cases hrl : rl = nil
        · subst hrl
          obtain ⟨fuel, rfl⟩ := Nat.exists_eq_add_one_of_ne_zero (Nat.ne_zero_of_lt hfuel')
          exact ⟨some z.1, _, btreeRemove_child hx (walkLeft_none hz hrl.hangs) hz,
            Removed.splice ht.apart rfl rfl hl hrr fun b _ => rfl⟩
        · obtain ⟨pr, g, hwalk, hleft, hmem, n, hn, hrest⟩ := walkLeft_spec (f := x.1) hr hrl hfuel'
          have hsites := sites_unleft (x := z) (l := rl) (r := rr)
          have hgr : g ∈ sites (node z rl rr) := hsites ▸ List.mem_cons_of_mem _ hmem
          have hgx : g ≠ x.1 := fun heq => hxr (heq ▸ hgr)
          have hwg : (unleft z rl rr).1.1 ≠ g := fun heq =>
            (List.nodup_cons.mp (hsites ▸ hr.apart)).1 (heq ▸ hmem)
          exact ⟨_, _, btreeRemove_deep hx hwalk hleft hn hgx hwg,
            Removed.splice ht.apart rfl hsites (hl.update (fun h => hlr h hgr) _) hrest
              fun b hb => Function.update_of_ne (fun heq : b = g => hb (heq ▸ hgr)) ..⟩

variable [LinearOrder κ] {ord : BtreeCmp α κ}

omit [DecidableEq ι] in
/-- Nothing but the key of the root is taken out of the keys. -/
theorem keys_unroot : ord.keys (unroot (node x l r)) = ord.keys l ++ ord.keys r := by
  rw [BtreeCmp.keys, inorder_unroot, List.map_append, BtreeCmp.keys, BtreeCmp.keys]

omit [DecidableEq ι] in
/-- The key of the root is not among the others. -/
theorem filter_keys (hs : ord.SearchTree (node x l r)) :
    (ord.keys (node x l r)).filter (· ≠ ord.key x.2.data) = ord.keys l ++ ord.keys r := by
  rw [BtreeCmp.searchTree_iff, BtreeCmp.keys_node, List.pairwise_append, List.pairwise_cons] at hs
  obtain ⟨-, ⟨hxr, -⟩, hlx⟩ := hs
  have hl : ∀ k ∈ ord.keys l, decide (k ≠ ord.key x.2.data) := fun k hk =>
    decide_eq_true (ne_of_lt (hlx k hk _ List.mem_cons_self))
  have hr : ∀ k ∈ ord.keys r, decide (k ≠ ord.key x.2.data) := fun k hk =>
    decide_eq_true (ne_of_gt (hxr k hk))
  rw [BtreeCmp.keys_node, List.filter_append, List.filter_cons_of_neg (by simp),
    List.filter_eq_self.mpr hl, List.filter_eq_self.mpr hr]

/-- **Removing the root of a search tree leaves a search tree with the other keys**, in
order and each of them once. -/
theorem btreeRemove_keys (ht : Hung m p (node x l r)) (hs : ord.SearchTree (node x l r))
    (hfuel : (node x l r).height ≤ fuel) :
    ∃ p' m' t', btreeRemove fuel m p = some (p', m') ∧ Hung m' p' t' ∧ ord.SearchTree t' ∧
      ord.keys t' = (ord.keys (node x l r)).filter (· ≠ ord.key x.2.data) := by
  obtain ⟨p', m', hrun, hremoved⟩ := btreeRemove_spec ht hfuel
  have hkeys := filter_keys hs
  refine ⟨p', m', _, hrun, hremoved.hung, ?_, keys_unroot.trans hkeys.symm⟩
  rw [BtreeCmp.searchTree_iff, keys_unroot, ← hkeys]
  exact (BtreeCmp.searchTree_iff.mp hs).filter _

/-- 7 takes the place of 5, over 9 and 8. -/
theorem btreeRemove_keys_five :
    let m : BtreeMem ℕ ℕ := fun
      | 0 => some ⟨⟨5, 0⟩, some 1, some 2⟩
      | 1 => some ⟨⟨2, 0⟩, none, none⟩
      | 2 => some ⟨⟨9, 0⟩, some 3, none⟩
      | 3 => some ⟨⟨7, 0⟩, none, some 4⟩
      | 4 => some ⟨⟨8, 0⟩, none, none⟩
      | _ => none
    ∃ p' m' t', btreeRemove 4 m (some 0) = some (p', m') ∧ Hung m' p' t' ∧ natCmp.SearchTree t' ∧
      natCmp.keys t' = [2, 7, 8, 9] :=
  btreeRemove_keys (x := (0, ⟨5, 0⟩)) (l := node (1, ⟨2, 0⟩) nil nil)
    (r := node (2, ⟨9, 0⟩) (node (3, ⟨7, 0⟩) nil (node (4, ⟨8, 0⟩) nil nil)) nil)
    ⟨⟨rfl, _, _, rfl, ⟨rfl, _, _, rfl, rfl, rfl⟩, rfl, _, _, rfl, ⟨rfl, _, _, rfl, rfl,
      rfl, _, _, rfl, rfl, rfl⟩, rfl⟩, by decide⟩
    (BtreeCmp.searchTree_iff.mpr (by decide)) (by decide)

end Radare
