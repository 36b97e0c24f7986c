import Mathlib.Data.List.Basic
import Mathlib.Tactic.Common
/-!
# Entries put before others

Entries are put into a list one after the other, each with a key that takes
out the entries it hits (`putAll`). The list grows by an entry a time at
most, and it has all of them in the end exactly if no key hits an entry that
is there (`length_putAll_eq_iff`); then they stand in it from the last to the
first (`Unhit.putAll_eq`).
-/

namespace Radare

namespace Common

variable {α β : Type} (hit : α → β → Bool)

/-- The list behind an entry, or behind a key with none. -/
def putOne (acc : List α) (p : β × Option α) : List α :=
  p.2.toList ++ acc.filter fun a => !hit a p.1

/-- The list behind one after the other. -/
def putAll (acc : List α) (ps : List (β × Option α)) : List α := ps.foldl (putOne hit) acc

/-- Every key has an entry, and hits none of those that are there by
then. -/
structure Unhit (acc : List α) (ps : List (β × Option α)) : Prop where
  isSome : ∀ p ∈ ps, p.2.isSome
  old : ∀ a ∈ acc, ∀ p ∈ ps, hit a p.1 = false
  new : ps.Pairwise fun p q => ∀ a ∈ p.2, hit a q.1 = false

variable {hit} {acc : List α} {p : β × Option α} {ps : List (β × Option α)}

theorem length_putOne_le : (putOne hit acc p).length ≤ acc.length + 1 := by
  have hfilter := List.length_filter_le (fun a => !hit a p.1) acc
  have hone : p.2.toList.length ≤ 1 := by cases p.2 <;> simp
  unfold putOne
  rw [List.length_append]
  omega

theorem length_putOne_eq_iff :
    (putOne hit acc p).length = acc.length + 1 ↔ p.2.isSome ∧ ∀ a ∈ acc, hit a p.1 = false := by
  have hfilter := List.length_filter_le (fun a => !hit a p.1) acc
  unfold putOne
  rw [List.length_append]
  cases hp : p.2 with
  | none =>
    refine iff_of_false ?_ fun h => Bool.false_ne_true h.1
    simp only [Option.toList_none, List.length_nil]
    omega
  | some a =>
    have hall : (acc.filter fun a => !hit a p.1).length = acc.length ↔
        ∀ a ∈ acc, hit a p.1 = false := by
      rw [List.length_filter_eq_length_iff]
      exact forall₂_congr fun a _ => by rw [Bool.not_eq_true']
    rw [← hall]
    simp only [Option.toList_some, List.length_singleton, Option.isSome_some, true_and]
    omega

theorem putOne_eq (hacc : ∀ a ∈ acc, hit a p.1 = false) : putOne hit acc p = p.2.toList ++ acc := by
  unfold putOne
  rw [List.filter_eq_self.mpr fun a ha => by rw [hacc a ha, Bool.not_false]]

/-- One more in front. -/
theorem unhit_cons : Unhit hit acc (p :: ps) ↔
    (p.2.isSome ∧ ∀ a ∈ acc, hit a p.1 = false) ∧ Unhit hit (p.2.toList ++ acc) ps := by
  constructor
  · rintro ⟨hsome, hold, hnew⟩
    obtain ⟨hp, hps⟩ := List.pairwise_cons.mp hnew
    refine ⟨⟨hsome p List.mem_cons_self, fun a ha => hold a ha p List.mem_cons_self⟩,
      fun q hq => hsome q (List.mem_cons_of_mem _ hq), fun a ha q hq => ?_, hps⟩
    rcases List.mem_append.mp ha with ha | ha
    · exact hp q hq a (Option.mem_toList.mp ha)
    · exact hold a ha q (List.mem_cons_of_mem _ hq)
  · rintro ⟨⟨hp, hacc⟩, hsome, hold, hnew⟩
    refine ⟨?_, fun a ha q hq => ?_, List.pairwise_cons.mpr ⟨fun q hq a ha => ?_, hnew⟩⟩
    · exact List.forall_mem_cons.mpr ⟨hp, hsome⟩
    · rcases List.mem_cons.mp hq with rfl | hq
      · exact hacc a ha
      · exact hold a (List.mem_append_right _ ha) q hq
    · exact hold a (List.mem_append_left _ (Option.mem_toList.mpr ha)) q hq

theorem length_putAll_le : (putAll hit acc ps).length ≤ acc.length + ps.length := by
  induction ps generalizing acc with
  | nil => exact Nat.le_refl _
  | cons p ps ih =>
    have hone : (putOne hit acc p).length ≤ acc.length + 1 := length_putOne_le
    have hrest : (putAll hit (putOne hit acc p) ps).length ≤ _ := ih
    rw [List.length_cons]
    exact Nat.le_trans hrest (by omega)

/-- **Nothing is lost exactly if nothing is hit.** -/
theorem length_putAll_eq_iff :
    (putAll hit acc ps).length = acc.length + ps.length ↔ Unhit hit acc ps := by
  induction ps generalizing acc with
  | nil =>
    exact iff_of_true rfl ⟨fun p hp => absurd hp List.not_mem_nil,
      fun a _ p hp => absurd hp List.not_mem_nil, List.Pairwise.nil⟩
  | cons p ps ih =>
    have hone : (putOne hit acc p).length ≤ acc.length + 1 := length_putOne_le
    have hrest : (putAll hit (putOne hit acc p) ps).length ≤ (putOne hit acc p).length + ps.length :=
      length_putAll_le
    have hcons : putAll hit acc (p :: ps) = putAll hit (putOne hit acc p) ps := rfl
    rw [unhit_cons, ← length_putOne_eq_iff, hcons, List.length_cons]
    constructor
    · intro h
      have hfirst : (putOne hit acc p).length = acc.length + 1 := by omega
      refine ⟨hfirst, ?_⟩
      rw [← putOne_eq (length_putOne_eq_iff.mp hfirst).2, ← ih]
      omega
    · rintro ⟨hfirst, hunhit⟩
      rw [← putOne_eq (length_putOne_eq_iff.mp hfirst).2, ← ih] at hunhit
      omega

/-- **What is there then.** -/
theorem Unhit.putAll_eq (h : Unhit hit acc ps) :
    putAll hit acc ps = (ps.filterMap (·.2)).reverse ++ acc := by
  induction ps generalizing acc with
  | nil => rfl
  | cons p ps ih =>
    obtain ⟨⟨hp, hacc⟩, hrest⟩ := unhit_cons.mp h
    obtain ⟨a, ha⟩ := Option.isSome_iff_exists.mp hp
    have hcons : putAll hit acc (p :: ps) = putAll hit (putOne hit acc p) ps := rfl
    rw [hcons, putOne_eq hacc, ih hrest, List.filterMap_cons_some ha, ha]
    simp

end Common

end Radare
