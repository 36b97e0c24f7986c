import Radare.Flags.Model
/-!
# Flags removed by prefix

`flag_remove` of a prefix and a `*` removes the flags whose name starts
with it, and then, as it does where it found no flag of a name, those at
the address the prefix comes to as an expression. A prefix with a `*` of
its own ends there. So the flags removed are the right ones exactly where
no others start with that part of the prefix, or stand at that address
(`flagRemove_prefix`).
-/

namespace Radare

variable {α : Type*} {p q : α → Bool} {l : List α}
variable {flags : List FlagT} {getMath : List FlagT → List u8 → ut64} {interrupted : Bool}
  {pre : List u8}

/-- A filter that keeps at least as much keeps the same only where the other
keeps it all. -/
theorem filter_eq_filter_iff (hpq : ∀ a ∈ l, p a → q a) :
    l.filter p = l.filter q ↔ ∀ a ∈ l, q a → p a := by
  constructor
  · intro heq a ha hq
    have hmem : a ∈ l.filter q := List.mem_filter.mpr ⟨ha, hq⟩
    rw [← heq] at hmem
    exact (List.mem_filter.mp hmem).2
  · intro hqp
    refine List.filter_congr fun a ha => ?_
    rw [Bool.eq_iff_iff]
    exact ⟨hpq a ha, hqp a ha⟩

/-- The mask of a prefix: what is before the first `*`. -/
def mask (pre : List u8) : List u8 := pre.takeWhile (· ≠ 42)

theorem mask_isPrefix : mask pre <+: pre := List.takeWhile_prefix _

/-- The text `flag_remove` cuts from its argument. -/
theorem takeWhile_concat : (pre ++ [42]).takeWhile (· ≠ 42) = mask pre := by
  unfold mask
  rw [List.takeWhile_append]
  split_ifs with h
  · rw [List.takeWhile_cons_of_neg (by simp), List.append_nil]
    exact ((List.takeWhile_prefix _).eq_of_length h).symm
  · rfl

/-- The flags of a table that do not start with a prefix. -/
def without (pre : List u8) (flags : List FlagT) : List FlagT :=
  flags.filter fun f => ¬pre <+: f.name

/-- No flag but those that start with a prefix is removed by it: none other
starts with its mask, and of the rest none is at the address that the mask
comes to. Interrupted, the walk removes nothing. -/
def Exact (getMath : List FlagT → List u8 → ut64) (interrupted : Bool) (pre : List u8)
    (flags : List FlagT) : Prop :=
  if interrupted then ∀ f ∈ flags, ¬pre <+: f.name
  else ∀ f ∈ flags, ¬pre <+: f.name →
    ¬mask pre <+: f.name ∧ f.offset ≠ getMath (without (mask pre) flags) (mask pre)

/-- **What is left** of the flags. -/
theorem flagRemove_eq :
    flagRemove getMath interrupted (pre ++ [42]) flags =
      if interrupted then flags
      else (without (mask pre) flags).filter
        (·.offset ≠ getMath (without (mask pre) flags) (mask pre)) := by
  have hne : pre ++ [42] ≠ [] := List.append_ne_nil_of_right_ne_nil _ (List.cons_ne_nil _ _)
  have hmask : 42 ∈ pre ++ [42] := List.mem_append_right _ List.mem_cons_self
  unfold flagRemove
  rw [if_neg hne, if_pos hmask]
  dsimp only
  rw [takeWhile_concat, flagClearByAddr_eq]
  cases interrupted with
  | true => rfl
  | false => rfl

/-- **When a prefix removes its flags**, all of them and no others. -/
theorem flagRemove_prefix (getMath : List FlagT → List u8 → ut64) (interrupted : Bool)
    (pre : List u8) (flags : List FlagT) :
    flagRemove getMath interrupted (pre ++ [42]) flags = without pre flags ↔
      Exact getMath interrupted pre flags := by
  rw [flagRemove_eq]
  unfold Exact
  cases interrupted with
  | true =>
    rw [if_pos rfl, if_pos rfl, eq_comm]
    unfold without
    rw [List.filter_eq_self]
    exact forall₂_congr fun f _ => decide_eq_true_iff
  | false =>
    rw [if_neg Bool.false_ne_true, if_neg Bool.false_ne_true]
    unfold without
    rw [List.filter_filter, filter_eq_filter_iff]
    · refine forall₂_congr fun f _ => ?_
      rw [Bool.and_eq_true, decide_eq_true_iff, decide_eq_true_iff, decide_eq_true_iff]
      exact imp_congr_right fun _ => and_comm
    · -- what starts with the prefix starts with its mask
      intro f _ h
      rw [Bool.and_eq_true, decide_eq_true_iff, decide_eq_true_iff] at h
      exact decide_eq_true fun hpre => h.2 (mask_isPrefix.trans hpre)

/-- **A flag at address zero is removed**, as `sym` is no number. -/
theorem main_removed_by_sym :
    let flags : List FlagT := [⟨[109, 97, 105, 110], 0, 0, 0, 0, none⟩]
    flagRemove (fun _ _ => 0) false ([115, 121, 109] ++ [42]) flags = [] ∧
      without [115, 121, 109] flags = flags := by
  decide

end Radare
