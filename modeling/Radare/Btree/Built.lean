import Radare.Btree.Model
/-!
# Trees that are built

`btree_add` puts one node more into the tree that hangs from the root (`btreeAdd_spec`), and
so what is built with it is a search tree (`Built.searchTree`). `btree_search` and
`btree_get` find what is in one.
-/

namespace Radare

open Common BinaryTree

variable {ι α κ : Type} [DecidableEq ι] [LinearOrder κ] {ord : BtreeCmp α κ} {m : BtreeMem ι α}
  {root p : Option ι} {t l r : BinaryTree (ι × BtreeLoad α)} {x y : ι × BtreeLoad α} {fuel : ℕ}

instance (ord : BtreeCmp α κ) : DecidableRel (ord.Less (ι := ι)) := fun x y =>
  inferInstanceAs (Decidable (ord.key x.2.data < ord.key y.2.data))

/-! ## Adding -/

omit [DecidableEq ι] in
theorem mem_sites_plant {b : ι} (h : b ∈ sites (plant ord.Less x t)) : b = x.1 ∨ b ∈ sites t := by
  obtain ⟨y, hy, rfl⟩ := List.mem_map.mp h
  obtain rfl | hy := mem_inorder_plant hy
  · exact .inl rfl
  · exact .inr (List.mem_map_of_mem hy)

omit [LinearOrder κ] [DecidableEq ι] in
theorem hung_leaf (hleaf : m x.1 = some ⟨x.2, none, none⟩) :
    Hung m (some x.1) (node x nil nil) :=
  ⟨⟨rfl, none, none, hleaf, rfl, rfl⟩, List.nodup_singleton x.1⟩

/-- A child of `y` after the insertion: hung from the link, with the other link and the rest of
the memory as they were. -/
structure BtreeInserted (ord : BtreeCmp α κ) (m m' : BtreeMem ι α) (x y : ι × BtreeLoad α)
    (t : BinaryTree (ι × BtreeLoad α)) (p : Option ι) : Prop where
  hung : Hung m' p (plant ord.Less x t)
  frame : ∀ b ∉ sites t, b ≠ y.1 → m' b = m b

namespace BtreeInserted

variable {m' : BtreeMem ι α} {p' pl pr : Option ι}

/-- Where there was no child, the leaf is. -/
theorem leaf (hxy : x.1 ≠ y.1) (hleaf : m x.1 = some ⟨x.2, none, none⟩)
    (n : Option (TreeNode ι (BtreeLoad α))) :
    BtreeInserted ord m (Function.update m y.1 n) x y nil (some x.1) := by
  refine ⟨hung_leaf ?_, fun b _ hb => Function.update_of_ne hb ..⟩
  rw [Function.update_of_ne hxy, hleaf]

omit [DecidableEq ι] in
/-- A left child with the node in it, and the right one as it was. -/
theorem left (h : BtreeInserted ord m m' x y l p') (hy : m' y.1 = some ⟨y.2, p', pr⟩)
    (hr : Hung m pr r) (hxy : x.1 ≠ y.1) (hxr : x.1 ∉ sites r) (hyl : y.1 ∉ sites l)
    (hyr : y.1 ∉ sites r) (hlr : (sites l).Disjoint (sites r)) :
    Hung m' (some y.1) (node y (plant ord.Less x l) r) ∧ ∀ b ∉ sites (node y l r), m' b = m b := by
  refine ⟨Hung.node_iff.mpr ⟨rfl, p', pr, hy, h.hung, hr.congr fun b hb => ?_, fun hmem => ?_, hyr,
    fun b hb => ?_⟩, fun b hb => ?_⟩
  · exact h.frame b (fun hl => hlr hl hb) fun heq => hyr (heq ▸ hb)
  · exact (mem_sites_plant hmem).elim (fun heq => hxy heq.symm) hyl
  · exact (mem_sites_plant hb).elim (fun heq => heq ▸ hxr) fun hl => hlr hl
  · rw [mem_sites_node, not_or, not_or] at hb
    exact h.frame b hb.1 hb.2.1

omit [DecidableEq ι] in
/-- The same for the right one. -/
theorem right (h : BtreeInserted ord m m' x y r p') (hy : m' y.1 = some ⟨y.2, pl, p'⟩)
    (hl : Hung m pl l) (hxy : x.1 ≠ y.1) (hxl : x.1 ∉ sites l) (hyl : y.1 ∉ sites l)
    (hyr : y.1 ∉ sites r) (hlr : (sites l).Disjoint (sites r)) :
    Hung m' (some y.1) (node y l (plant ord.Less x r)) ∧ ∀ b ∉ sites (node y l r), m' b = m b := by
  refine ⟨Hung.node_iff.mpr ⟨rfl, pl, p', hy, hl.congr fun b hb => ?_, h.hung, hyl, fun hmem => ?_,
    fun b hb hb' => ?_⟩, fun b hb => ?_⟩
  · exact h.frame b (fun hr => hlr hb hr) fun heq => hyl (heq ▸ hb)
  · exact (mem_sites_plant hmem).elim (fun heq => hxy heq.symm) hyr
  · exact (mem_sites_plant hb').elim (fun heq => hxl (heq ▸ hb)) fun hr => hlr hb hr
  · rw [mem_sites_node, not_or, not_or] at hb
    exact h.frame b hb.2.2 hb.2.1

end BtreeInserted

/-- **`btree_insert` hangs the node in where it belongs.** -/
theorem btreeInsert_spec (ord : BtreeCmp α κ) {a : ι} (ht : Hung m (some a) t) (hx : x.1 ∉ sites t)
    (hleaf : m x.1 = some ⟨x.2, none, none⟩) (hfuel : t.height ≤ fuel) :
    ∃ m', btreeInsert ord.cmp fuel m a x.1 = some m' ∧
      Hung m' (some a) (plant ord.Less x t) ∧ ∀ b ∉ sites t, m' b = m b := by
  induction t generalizing a fuel with
  | nil => exact absurd ht.hangs (Option.some_ne_none a)
  | node y l r ihl ihr =>
    obtain ⟨ha, pl, pr, hy, hl, hr, hyl, hyr, hlr⟩ := Hung.node_iff.mp ht
    obtain rfl : a = y.1 := Option.some.inj ha
    obtain ⟨fuel, rfl⟩ := Nat.exists_eq_add_one_of_ne_zero
      (n := fuel) (by simp only [height] at hfuel; omega)
    have hheight : l.height ≤ fuel ∧ r.height ≤ fuel := by
      simp only [height] at hfuel
      omega
    rw [mem_sites_node, not_or, not_or] at hx
    obtain ⟨hxl, hxy, hxr⟩ := hx
    rw [btreeInsert, hleaf, hy, Option.bind_eq_bind, Option.bind_some, Option.bind_some, plant]
    by_cases hless : ord.Less x y
    · rw [if_pos ((ord.neg_iff _ _).mpr hless), if_pos hless]
      cases l with
      | nil =>
        obtain rfl : pl = none := hl.hangs
        exact ⟨_, setLeft_eq hy, (BtreeInserted.leaf hxy hleaf _).left (Function.update_self ..)
          hr hxy hxr hyl hyr hlr⟩
      | node z ll lr =>
        obtain ⟨rfl, -⟩ := Hung.node_iff.mp hl
        obtain ⟨m', hrun, hhung, hrest⟩ := ihl hl hxl hheight.1
        have hin : BtreeInserted ord m m' x y (node z ll lr) (some z.1) :=
          ⟨hhung, fun b hb _ => hrest b hb⟩
        exact ⟨m', hrun, hin.left ((hrest _ hyl).trans hy) hr hxy hxr hyl hyr hlr⟩
    · rw [if_neg fun h => hless ((ord.neg_iff _ _).mp h), if_neg hless]
      by_cases hmore : ord.Less y x
      · rw [if_pos ((ord.pos_iff _ _).mpr hmore), if_pos hmore]
        cases r with
        | nil =>
          obtain rfl : pr = none := hr.hangs
          exact ⟨_, setRight_eq hy, (BtreeInserted.leaf hxy hleaf _).right
            (Function.update_self ..) hl hxy hxl hyl hyr hlr⟩
        | node z rl rr =>
          obtain ⟨rfl, -⟩ := Hung.node_iff.mp hr
          obtain ⟨m', hrun, hhung, hrest⟩ := ihr hr hxr hheight.2
          have hin : BtreeInserted ord m m' x y (node z rl rr) (some z.1) :=
            ⟨hhung, fun b hb _ => hrest b hb⟩
          exact ⟨m', hrun, hin.right ((hrest _ hyr).trans hy) hl hxy hxl hyl hyr hlr⟩
      · rw [if_neg fun h => hmore ((ord.pos_iff _ _).mp h), if_neg hmore]
        exact ⟨m, rfl, ht, fun b _ => rfl⟩

omit [LinearOrder κ] in
/-- With more fuel it is the same. -/
theorem btreeInsert_mono {cmp : α → α → ℤ} {a b : ι} {m' : BtreeMem ι α} {fuel' : ℕ}
    (h : btreeInsert cmp fuel m a b = some m') (hle : fuel ≤ fuel') :
    btreeInsert cmp fuel' m a b = some m' := by
  induction fuel generalizing a fuel' with
  | zero => exact absurd h.symm (Option.some_ne_none m')
  | succ fuel ih =>
    obtain ⟨fuel', rfl⟩ := Nat.exists_eq_add_one_of_ne_zero (Nat.ne_zero_of_lt hle)
    have hle' := Nat.le_of_succ_le_succ hle
    rw [btreeInsert] at h ⊢
    obtain ⟨np, hp, h⟩ := Option.bind_eq_some_iff.mp h
    obtain ⟨nt, ht, h⟩ := Option.bind_eq_some_iff.mp h
    rw [hp, ht, Option.bind_eq_bind, Option.bind_some, Option.bind_some]
    dsimp only at h ⊢
    split_ifs at h ⊢ with hneg hpos
    · cases hl : nt.left with
      | none =>
        rw [hl] at h
        exact h
      | some left =>
        rw [hl] at h
        exact ih h hle'
    · cases hr : nt.right with
      | none =>
        rw [hr] at h
        exact h
      | some right =>
        rw [hr] at h
        exact ih h hle'
    · exact h

/-- **`btree_add` hangs one node more in the tree.** -/
theorem btreeAdd_spec (ord : BtreeCmp α κ) {a : ι} {e : α} (ht : Hung m root t)
    (ha : m a = none) (hfuel : t.height ≤ fuel) :
    ∃ root' m', btreeAdd ord.cmp fuel m root a e = some (root', m') ∧
      Hung m' root' (plant ord.Less (a, ⟨e, 0⟩) t) := by
  have hat : a ∉ sites t := fun h => by
    have := ht.hangs.isSome h
    rw [ha] at this
    exact Bool.false_ne_true this
  have hself : Function.update m a (some ⟨⟨e, 0⟩, none, none⟩) a = some ⟨⟨e, 0⟩, none, none⟩ :=
    Function.update_self ..
  cases root with
  | none =>
    obtain rfl := ht.hangs.nil_of_none
    exact ⟨some a, _, rfl, hung_leaf (x := (a, ⟨e, 0⟩)) hself⟩
  | some b =>
    obtain ⟨m', hrun, hhung, -⟩ := btreeInsert_spec ord (x := (a, ⟨e, 0⟩))
      (ht.update hat _) hat hself hfuel
    exact ⟨some b, m', by rw [btreeAdd, hrun]; rfl, hhung⟩

/-- What is built with `btree_add` from the empty tree, the nodes at places that were free. -/
inductive Built (ord : BtreeCmp α κ) : BtreeMem ι α → Option ι → Prop
  | empty (m : BtreeMem ι α) : Built ord m none
  | add {m m' : BtreeMem ι α} {root root' : Option ι} {a : ι} (fuel : ℕ) (e : α)
      (hm : Built ord m root) (ha : m a = none)
      (hadd : btreeAdd ord.cmp fuel m root a e = some (root', m')) : Built ord m' root'

/-- **What is built is a search tree.** -/
theorem Built.searchTree (hbuilt : Built ord m root) : ∃ t, Hung m root t ∧ ord.SearchTree t := by
  induction hbuilt with
  | empty m => exact ⟨nil, hung_nil, trivial⟩
  | @add m m' root root' a fuel e _ ha hadd ih =>
    obtain ⟨t, ht, hs⟩ := ih
    obtain ⟨root'', m'', hrun, hhung⟩ :=
      btreeAdd_spec ord (e := e) ht ha (le_max_right fuel t.height)
    have hsame : btreeAdd ord.cmp (max fuel t.height) m root a e = some (root', m') := by
      cases root with
      | none => exact hadd
      | some b =>
        rw [btreeAdd] at hadd ⊢
        obtain ⟨m₁, hins, hres⟩ := Option.map_eq_some_iff.mp hadd
        rw [btreeInsert_mono hins (le_max_left ..)]
        exact congrArg some hres
    obtain ⟨rfl, rfl⟩ := (Prod.mk.injEq ..).mp (Option.some.inj (hrun.symm.trans hsame))
    exact ⟨_, hhung, hs.plant⟩

/-! ## Searching -/

section Search

variable {d : α}

omit [DecidableEq ι] in
theorem mem_keys_node (hs : ord.SearchTree (node x l r)) :
    ord.key d ∈ ord.keys (node x l r) ↔
      if ord.key d < ord.key x.2.data then ord.key d ∈ ord.keys l
      else if ord.key x.2.data < ord.key d then ord.key d ∈ ord.keys r else True := by
  rw [BtreeCmp.searchTree_iff, BtreeCmp.keys_node, List.pairwise_append, List.pairwise_cons] at hs
  obtain ⟨-, ⟨hxr, -⟩, hlx⟩ := hs
  rw [BtreeCmp.keys_node, List.mem_append, List.mem_cons]
  split_ifs with hlt hgt
  · refine or_iff_left fun h => ?_
    obtain h | h := h
    · exact ne_of_lt hlt h
    · exact lt_asymm hlt (hxr _ h)
  · constructor
    · rintro (h | h | h)
      · exact absurd (hlx _ h _ List.mem_cons_self) hlt
      · exact absurd h (ne_of_gt hgt)
      · exact h
    · exact fun h => .inr (.inr h)
  · exact iff_of_true (.inr (.inl (le_antisymm (not_lt.mp hgt) (not_lt.mp hlt)))) trivial

/-- What `btree_search` gives: something if the key is there, and then the root, or the node
with the key. -/
structure TreeFound (ord : BtreeCmp α κ) (m : BtreeMem ι α) (p : Option ι) (d : α) (parent : Bool)
    (q : Option ι) : Prop where
  root : parent = true → ∀ a, q = some a → p = some a
  node : parent = false → ∀ a, q = some a → ∃ n, m a = some n ∧ ord.key n.load.data = ord.key d

omit [DecidableEq ι] in
/-- **`btree_search` finds what is in a search tree.** -/
theorem btreeSearch_spec (parent : Bool) (ht : Hangs m p t) (hs : ord.SearchTree t)
    (hfuel : t.height < fuel) :
    ∃ q, btreeSearch ord.cmp m d parent fuel p = some q ∧
      (q.isSome ↔ ord.key d ∈ ord.keys t) ∧ TreeFound ord m p d parent q := by
  obtain ⟨fuel, rfl⟩ := Nat.exists_eq_add_one_of_ne_zero (Nat.ne_zero_of_lt hfuel)
  induction t generalizing p fuel with
  | nil =>
    obtain rfl : p = none := ht
    exact ⟨none, rfl, by simp [BtreeCmp.keys], fun _ _ h => absurd h.symm (Option.some_ne_none _),
      fun _ _ h => absurd h.symm (Option.some_ne_none _)⟩
  | node x l r ihl ihr =>
    obtain ⟨rfl, pl, pr, hx, hl, hr⟩ := ht
    have hheight : l.height < fuel ∧ r.height < fuel := by
      simp only [height] at hfuel
      omega
    obtain ⟨fuel, rfl⟩ := Nat.exists_eq_add_one_of_ne_zero (Nat.ne_zero_of_lt hheight.1)
    have hfound : ∃ q, (if ord.cmp d x.2.data < 0 then
          btreeSearch ord.cmp m d parent (fuel + 1) pl
        else if 0 < ord.cmp d x.2.data then btreeSearch ord.cmp m d parent (fuel + 1) pr
        else some (some x.1)) = some q ∧ (q.isSome ↔ ord.key d ∈ ord.keys (node x l r)) ∧
        (parent = false → ∀ a, q = some a →
          ∃ n, m a = some n ∧ ord.key n.load.data = ord.key d) := by
      rw [mem_keys_node hs]
      simp only [ord.neg_iff, ord.pos_iff]
      split_ifs with hlt hgt
      · obtain ⟨q, hq, hmem, hfound⟩ := ihl hl hs.1 fuel hheight.1
        exact ⟨q, hq, hmem, hfound.node⟩
      · obtain ⟨q, hq, hmem, hfound⟩ := ihr hr hs.2.1 fuel hheight.2
        exact ⟨q, hq, hmem, hfound.node⟩
      · refine ⟨some x.1, rfl, iff_of_true rfl trivial, fun _ a ha => ?_⟩
        obtain rfl := Option.some.inj ha
        exact ⟨_, hx, le_antisymm (not_lt.mp hlt) (not_lt.mp hgt)⟩
    obtain ⟨q, hq, hmem, hnode⟩ := hfound
    refine ⟨q.map fun p => if parent then x.1 else p, ?_, ?_, ?_, ?_⟩
    · rw [btreeSearch, hx, Option.bind_eq_bind, Option.bind_some, hq]
      rfl
    · rw [Option.isSome_map, hmem]
    · intro hparent a ha
      obtain ⟨b, -, rfl⟩ := Option.map_eq_some_iff.mp ha
      rw [if_pos hparent]
    · intro hparent a ha
      obtain ⟨b, hb, rfl⟩ := Option.map_eq_some_iff.mp ha
      rw [if_neg (by rw [hparent]; exact Bool.false_ne_true)]
      exact hnode hparent b hb

/-- **`btree_get` finds the keys of a search tree, and no others.** -/
theorem btreeGet_spec (ht : Hangs m p t) (hs : ord.SearchTree t) (hfuel : t.height < fuel) :
    (btreeGet ord.cmp fuel m p d).map (fun r => r.1.map ord.key) =
      some (if ord.key d ∈ ord.keys t then some (ord.key d) else none) := by
  obtain ⟨q, hq, hmem, hfound⟩ := btreeSearch_spec (d := d) false ht hs hfuel
  rw [btreeGet, hq]
  cases q with
  | none => rw [if_neg fun h => Bool.false_ne_true (hmem.mpr h)]; rfl
  | some a =>
    obtain ⟨n, hn, hkey⟩ := hfound.node rfl a rfl
    rw [if_pos (hmem.mp rfl), ← hkey, Option.bind_eq_bind, Option.bind_some]
    dsimp only
    rw [hn]
    rfl

end Search

end Radare
