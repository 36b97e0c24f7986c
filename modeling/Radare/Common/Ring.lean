import Mathlib.Data.List.Nodup
import Mathlib.Logic.Function.Basic
import Mathlib.Tactic.Common
/-!
# Rings of linked nodes

The nodes of a list are linked both ways, from a head around to it again
(`Ring`). A node is taken out by the links of its neighbours, and its own links
are cleared (`unlink`): what is left is the ring without it (`Ring.unlink`), and
it cannot be taken out a second time (`unlink_unlink`).

A loop that knows the next node before it looks at one (`eachSafe`) can take out
the one it looks at (`sweep`). If it takes out none of them twice, the nodes it does not
take out are left, in order (`Ring.sweep`), and else it ends at a link that is
cleared (`Ring.sweep_eq_none`).
-/

namespace Radare

namespace Common

variable {N : Type*}

/-- The links of the nodes, where there is one. -/
structure Links (N : Type*) where
  next : N → Option N
  prev : N → Option N

/-- One follows the other from `a` on, and then `b` does. -/
def Path (f : N → Option N) : N → List N → N → Prop
  | a, [], b => f a = some b
  | a, x :: ns, b => f a = some x ∧ Path f x ns b

/-- The nodes are linked in this order, from the head around to it again. -/
structure Ring (l : Links N) (h : N) (ns : List N) : Prop where
  nodup : (h :: ns).Nodup
  next : Path l.next h ns h
  prev : Path l.prev h ns.reverse h

variable [DecidableEq N]

/-- The neighbours of a node are linked, and its own links are cleared. -/
def unlink (x : N) (l : Links N) : Option (Links N) :=
  (l.prev x).bind fun p => (l.next x).map fun q =>
    ⟨Function.update (Function.update l.next p (some q)) x none,
      Function.update (Function.update l.prev q (some p)) x none⟩

/-- A node is taken out so many times. -/
def unlinks (x : N) : ℕ → Links N → Option (Links N)
  | 0, l => some l
  | k + 1, l => (unlink x l).bind (unlinks x k)

/-- The loop at `pos`, with `n` the next one. -/
def eachSafeFrom (body : N → Links N → Option (Links N)) (h : N) :
    ℕ → N → N → Links N → Option (Links N)
  | 0, _, _, _ => none
  | fuel + 1, pos, n, l =>
    if pos = h then some l
    else (body pos l).bind fun l => (l.next n).bind fun m => eachSafeFrom body h fuel n m l

/-- The loop from the head on. -/
def eachSafe (body : N → Links N → Option (Links N)) (h : N) (fuel : ℕ) (l : Links N) :
    Option (Links N) :=
  (l.next h).bind fun pos => (l.next pos).bind fun n => eachSafeFrom body h fuel pos n l

/-- The loop that takes out the node it is at, so many times. -/
def sweepFrom (times : N → ℕ) : N → ℕ → N → N → Links N → Option (Links N) :=
  eachSafeFrom fun x => unlinks x (times x)

/-- The same from the head on. -/
def sweep (times : N → ℕ) : N → ℕ → Links N → Option (Links N) :=
  eachSafe fun x => unlinks x (times x)

variable {f : N → Option N} {l : Links N} {a b h p q x : N} {ns ms pre post : List N}
variable {times : N → ℕ} {fuel : ℕ}

/-! ## Paths -/

omit [DecidableEq N] in
theorem path_append_cons : Path f a (ns ++ x :: ms) b ↔ Path f a ns x ∧ Path f x ms b := by
  induction ns generalizing a with
  | nil => exact Iff.rfl
  | cons y ns ih => exact (and_congr_right fun _ => ih).trans and_assoc.symm

omit [DecidableEq N] in
theorem Path.head (hpath : Path f a ns b) : f a = some (ns.headD b) := by
  cases ns with
  | nil => exact hpath
  | cons x ns => exact hpath.1

omit [DecidableEq N] in
theorem Path.last (hpath : Path f a ns b) : f (ns.getLastD a) = some b := by
  induction ns generalizing a with
  | nil => exact hpath
  | cons x ns ih =>
    rw [List.getLastD_cons]
    exact ih hpath.2

omit [DecidableEq N] in
/-- Only the links of the nodes in front of the end matter. -/
theorem Path.congr {g : N → Option N} (hpath : Path f a ns b) (hfg : ∀ x ∈ a :: ns, g x = f x) :
    Path g a ns b := by
  induction ns generalizing a with
  | nil => exact (hfg a List.mem_cons_self).trans hpath
  | cons x ns ih =>
    refine ⟨(hfg a List.mem_cons_self).trans hpath.1, ih hpath.2 fun y hy => ?_⟩
    exact hfg y (List.mem_cons_of_mem _ hy)

/-- The last link is turned to another node. -/
theorem Path.redirect (hpath : Path f a ns b) (hnodup : (a :: ns).Nodup) (q : N) :
    Path (Function.update f (ns.getLastD a) (some q)) a ns q := by
  induction ns generalizing a with
  | nil => exact Function.update_self a (some q) f
  | cons x ns ih =>
    obtain ⟨ha, hns⟩ := List.nodup_cons.mp hnodup
    rw [List.getLastD_cons]
    refine ⟨?_, ih hpath.2 hns⟩
    have hne : a ≠ ns.getLastD x := fun h => ha (h ▸ List.getLastD_mem_cons)
    rw [Function.update_of_ne hne]
    exact hpath.1

/-- **A node is left out of a path**: the one in front of it is linked to the
one behind. -/
theorem Path.leave (hpath : Path f h (pre ++ x :: post) h) (hnodup : (h :: (pre ++ x :: post)).Nodup) :
    Path (Function.update (Function.update f (pre.getLastD h) (some (post.headD h))) x none)
      h (pre ++ post) h := by
  obtain ⟨hfront, hback⟩ := path_append_cons.mp hpath
  rw [← List.cons_append, List.nodup_append] at hnodup
  obtain ⟨hpre, hpost, hapart⟩ := hnodup
  obtain ⟨hx, hpost⟩ := List.nodup_cons.mp hpost
  have hnew : Path (Function.update (Function.update f (pre.getLastD h) (some (post.headD h))) x
      none) h pre (post.headD h) := by
    refine (hfront.redirect hpre _).congr fun y hy => Function.update_of_ne ?_ _ _
    exact hapart y hy x List.mem_cons_self
  cases post with
  | nil => rwa [List.append_nil]
  | cons y post =>
    refine path_append_cons.mpr ⟨hnew, hback.2.congr fun z hz => ?_⟩
    have hzx : z ≠ x := fun h => hx (h ▸ hz)
    have hzp : z ≠ pre.getLastD h :=
      (hapart _ List.getLastD_mem_cons z (List.mem_cons_of_mem _ hz)).symm
    rw [Function.update_of_ne hzx, Function.update_of_ne hzp]

/-! ## One node -/

omit [DecidableEq N] in
theorem headD_reverse (ns : List N) (h : N) : ns.reverse.headD h = ns.getLastD h := by
  rw [List.headD_eq_head?_getD, List.head?_reverse, List.getLastD_eq_getLast?]

omit [DecidableEq N] in
theorem getLastD_reverse (ns : List N) (h : N) : ns.reverse.getLastD h = ns.headD h := by
  rw [← headD_reverse, List.reverse_reverse]

/-- **A node of a ring is taken out**, and the ring without it is left. -/
theorem Ring.unlink (hring : Ring l h (pre ++ x :: post)) :
    ∃ l', unlink x l = some l' ∧ Ring l' h (pre ++ post) := by
  obtain ⟨hnodup, hnext, hprev⟩ := hring
  have hnextx : l.next x = some (post.headD h) := (path_append_cons.mp hnext).2.head
  have hrev : (pre ++ x :: post).reverse = post.reverse ++ x :: pre.reverse := by simp
  rw [hrev] at hprev
  have hprevx : l.prev x = some (pre.getLastD h) := by
    rw [(path_append_cons.mp hprev).2.head, headD_reverse]
  refine ⟨_, by rw [Common.unlink, hprevx, hnextx]; rfl, ?_, hnext.leave hnodup, ?_⟩
  · refine hnodup.sublist (List.Sublist.cons_cons h ?_)
    exact List.Sublist.append_left (List.sublist_cons_self x post) pre
  · have hback := hprev.leave (by rwa [← hrev, List.nodup_cons, List.mem_reverse,
      List.nodup_reverse, ← List.nodup_cons])
    rwa [getLastD_reverse, headD_reverse, ← List.reverse_append] at hback

/-- The links of a node are cleared. -/
theorem prev_unlink {l' : Links N} (hl' : unlink x l = some l') : l'.prev x = none := by
  obtain ⟨p, -, hmap⟩ := Option.bind_eq_some_iff.mp hl'
  obtain ⟨q, -, rfl⟩ := Option.map_eq_some_iff.mp hmap
  dsimp only
  rw [Function.update_self]

/-- **No node is taken out twice.** -/
theorem unlink_unlink (x : N) (l : Links N) : (unlink x l).bind (unlink x) = none := by
  rw [Option.bind_eq_none_iff]
  intro l' hl'
  rw [unlink, prev_unlink hl', Option.bind_none]

theorem unlinks_eq_none (x : N) (k : ℕ) (l : Links N) : unlinks x (k + 2) l = none := by
  have htwo : unlinks x (k + 2) l = ((unlink x l).bind (unlink x)).bind (unlinks x k) :=
    (Option.bind_assoc _ _ _).symm
  rw [htwo, unlink_unlink, Option.bind_none]

theorem unlinks_add (x : N) (j k : ℕ) (l : Links N) :
    (unlinks x j l).bind (unlinks x k) = unlinks x (j + k) l := by
  induction j generalizing l with
  | zero => rw [Nat.zero_add, unlinks, Option.bind_some]
  | succ j ih =>
    rw [unlinks, Option.bind_assoc, Nat.succ_add]
    exact Option.bind_congr fun l' _ => ih l'

/-! ## The loop -/

/-- A turn of the loop at a node that is taken out once at most. -/
theorem Ring.sweepFrom_turn (fuel : ℕ) (hring : Ring l h (pre ++ x :: post)) (htimes : times x ≤ 1) :
    ∃ l' m, Ring l' h (pre ++ (if times x = 0 then [x] else []) ++ post) ∧
      sweepFrom times h (fuel + 1) x (post.headD h) l =
        sweepFrom times h fuel (post.headD h) m l' ∧
      l'.next (post.headD h) = some m := by
  have hx : x ≠ h := fun hx => (List.nodup_cons.mp hring.nodup).1 (by simp [hx])
  have hleft : ∃ l', unlinks x (times x) l = some l' ∧
      Ring l' h (pre ++ (if times x = 0 then [x] else []) ++ post) := by
    rcases Nat.le_one_iff_eq_zero_or_eq_one.mp htimes with hzero | hone
    · exact ⟨l, by rw [hzero]; rfl, by rwa [if_pos hzero, List.append_assoc]⟩
    · obtain ⟨l', hl', hring'⟩ := hring.unlink
      refine ⟨l', ?_, by rwa [if_neg (by omega), List.append_nil]⟩
      rw [hone, unlinks, hl']
      rfl
  obtain ⟨l', hl', hring'⟩ := hleft
  have hnext : ∃ m, l'.next (post.headD h) = some m := by
    cases post with
    | nil => exact ⟨_, hring'.next.head⟩
    | cons y post => exact ⟨_, (path_append_cons.mp hring'.next).2.head⟩
  obtain ⟨m, hm⟩ := hnext
  refine ⟨l', m, hring', ?_, hm⟩
  rw [Common.sweepFrom, eachSafeFrom, if_neg hx, hl', Option.bind_some, hm, Option.bind_some]

/-- **What the loop leaves**, from a node on: the nodes it does not take out. -/
theorem Ring.sweepFrom (pre : List N) (hring : Ring l h (pre ++ ns)) (htimes : ∀ x ∈ ns, times x ≤ 1)
    (hfuel : ns.length < fuel) (hn : l.next (ns.headD h) = some q) :
    ∃ l', sweepFrom times h fuel (ns.headD h) q l = some l' ∧
      Ring l' h (pre ++ ns.filter fun x => times x = 0) := by
  induction ns generalizing pre l q fuel with
  | nil =>
    obtain ⟨fuel, rfl⟩ : ∃ k, fuel = k + 1 := ⟨fuel - 1, by omega⟩
    exact ⟨l, if_pos rfl, hring⟩
  | cons x ns ih =>
    obtain ⟨hx, hns⟩ := List.forall_mem_cons.mp htimes
    rw [List.length_cons] at hfuel
    obtain ⟨fuel, rfl⟩ : ∃ k, fuel = k + 1 := ⟨fuel - 1, by omega⟩
    have hq : q = ns.headD h := by
      have hhead := (path_append_cons.mp hring.next).2.head
      exact Option.some.inj (hn.symm.trans hhead)
    obtain ⟨l', m, hring', hturn, hm⟩ := hring.sweepFrom_turn fuel hx
    have hless : ns.length < fuel := by omega
    obtain ⟨l'', hl'', hleft⟩ := ih _ hring' hns hless hm
    refine ⟨l'', by rw [List.headD_cons, hq, hturn, hl''], ?_⟩
    rw [List.append_assoc] at hleft
    convert hleft using 2
    rw [List.filter_cons]
    by_cases hzero : times x = 0
    · rw [if_pos (by simpa using hzero), if_pos hzero, List.singleton_append]
    · rw [if_neg (by simpa using hzero), if_neg hzero, List.nil_append]

/-- **The loop ends at a node that it takes out twice.** -/
theorem Ring.sweepFrom_eq_none (pre : List N) (hring : Ring l h (pre ++ ns)) (htwice : ∃ x ∈ ns, 2 ≤ times x)
    (hn : l.next (ns.headD h) = some q) :
    Common.sweepFrom times h fuel (ns.headD h) q l = none := by
  induction ns generalizing pre l q fuel with
  | nil =>
    obtain ⟨x, hx, -⟩ := htwice
    exact absurd hx List.not_mem_nil
  | cons x ns ih =>
    rcases fuel with _ | fuel
    · rfl
    have hq : q = ns.headD h := by
      have hhead := (path_append_cons.mp hring.next).2.head
      exact Option.some.inj (hn.symm.trans hhead)
    rcases Nat.lt_or_ge (times x) 2 with hone | htwo
    · have hle : times x ≤ 1 := by omega
      obtain ⟨l', m, hring', hturn, hm⟩ := hring.sweepFrom_turn fuel hle
      obtain ⟨y, hy, hytwo⟩ := htwice
      have hyns : y ∈ ns := (List.mem_cons.mp hy).resolve_left fun h => by rw [h] at hytwo; omega
      rw [List.headD_cons, hq, hturn]
      exact ih _ hring' ⟨y, hyns, hytwo⟩ hm
    · obtain ⟨k, hk⟩ : ∃ k, times x = k + 2 := ⟨times x - 2, by omega⟩
      have hx : x ≠ h := fun hx => (List.nodup_cons.mp hring.nodup).1 (by simp [hx])
      rw [List.headD_cons, Common.sweepFrom, eachSafeFrom, if_neg hx, hk, unlinks_eq_none, Option.bind_none]

/-- The loop from the head on is the loop from the first node on. -/
theorem Ring.sweep_eq (times : N → ℕ) (fuel : ℕ) (hring : Ring l h ns) :
    ∃ q, l.next (ns.headD h) = some q ∧
      sweep times h fuel l = Common.sweepFrom times h fuel (ns.headD h) q l := by
  have hfirst := hring.next.head
  have hsecond : ∃ q, l.next (ns.headD h) = some q := by
    cases ns with
    | nil => exact ⟨h, hring.next⟩
    | cons x ns => exact ⟨_, hring.next.2.head⟩
  obtain ⟨q, hq⟩ := hsecond
  refine ⟨q, hq, ?_⟩
  rw [Common.sweep, eachSafe, hfirst, Option.bind_some, hq, Option.bind_some]
  rfl

/-- **What the loop leaves**: if it takes out no node twice, the nodes it does
not take out, in order. -/
theorem Ring.sweep (times : N → ℕ) (hring : Ring l h ns) (htimes : ∀ x ∈ ns, times x ≤ 1)
    (hfuel : ns.length < fuel) :
    ∃ l', Common.sweep times h fuel l = some l' ∧ Ring l' h (ns.filter fun x => times x = 0) := by
  obtain ⟨q, hq, hsweep⟩ := hring.sweep_eq times fuel
  rw [hsweep]
  exact Ring.sweepFrom [] hring htimes hfuel hq

theorem Ring.sweep_eq_none (times : N → ℕ) (hring : Ring l h ns)
    (htwice : ∃ x ∈ ns, 2 ≤ times x) : Common.sweep times h fuel l = none := by
  obtain ⟨q, hq, hsweep⟩ := hring.sweep_eq times fuel
  rw [hsweep]
  exact Ring.sweepFrom_eq_none [] hring htwice hq

end Common

end Radare
