import Mathlib.Data.List.Induction
import Mathlib.Tactic.Common
/-!
# Patches

What an undo log holds of a map: for each change, the values of the
places changed as they were before it. Putting them back from the last
change to the first (`restore`) leaves every place a patch has with the
value of the earliest one, so it does not matter what was there
(`restore_congr`), and a patch taken of the map itself puts back what was
not yet covered (`restore_concat`).

The changes themselves are put on in order (`replay`), so that the latest
one decides. A log replayed in the wrong direction gives the same map
exactly where the earliest and the latest agree (`restore_eq_replay_iff`).
-/

namespace Radare

namespace Common

variable {ι β : Type*}

/-- Values for some of the places of a map. -/
abbrev Patch (ι β : Type*) := ι → Option β

/-- A map with a patch put on it. -/
def Patch.put (p : Patch ι β) (m : ι → β) : ι → β := fun x => (p x).getD (m x)

/-- The patches put back, the last one of the list first. -/
def restore (ps : List (Patch ι β)) (m : ι → β) : ι → β := ps.foldr Patch.put m

variable {p : Patch ι β} {ps : List (Patch ι β)} {m m' : ι → β} {x : ι}

theorem restore_cons : restore (p :: ps) m = p.put (restore ps m) := rfl

/-- Each place is decided by the first patch that has it. -/
theorem restore_apply : restore ps m x = (ps.findSome? fun p => p x).getD (m x) := by
  induction ps with
  | nil => rfl
  | cons p ps ih =>
    rw [restore_cons, Patch.put, ih, List.findSome?_cons]
    cases p x <;> rfl

/-- **What lies under a patch does not matter.** -/
theorem restore_congr (h : ∀ x, (∀ p ∈ ps, p x = none) → m x = m' x) :
    restore ps m = restore ps m' := by
  ext x
  rw [restore_apply, restore_apply]
  cases hx : ps.findSome? fun p => p x with
  | some b => rfl
  | none => exact h x (List.findSome?_eq_none_iff.mp hx)

/-- **A patch of the map itself puts back a change that stays inside
it.** -/
theorem restore_concat (hp : ∀ x b, p x = some b → b = m x) (hm : ∀ x, p x = none → m' x = m x) :
    restore (ps ++ [p]) m' = restore ps m := by
  have hput : p.put m' = m := by
    ext x
    rw [Patch.put]
    cases hx : p x with
    | some b => exact hp x b hx
    | none => exact hm x hx
  rw [restore, List.foldr_append, List.foldr_cons, List.foldr_nil, hput]
  rfl

/-! ## Changes put on -/

/-- The patches put on, the first one of the list first. -/
def replay (ps : List (Patch ι β)) (m : ι → β) : ι → β := ps.foldl (fun m p => p.put m) m

theorem replay_concat : replay (ps ++ [p]) m = p.put (replay ps m) := by
  rw [replay, List.foldl_append]
  rfl

/-- Each place is decided by the last patch that has it. -/
theorem replay_apply : replay ps m x = (ps.reverse.findSome? fun p => p x).getD (m x) := by
  rw [← restore_apply, restore, List.foldr_reverse]
  rfl

/-- **Put on from the last to the first, the changes give what they gave
in order exactly if the first and the last one of every place agree.** -/
theorem restore_eq_replay_iff (hm : ∀ x, (∀ p ∈ ps, p x = none) → m' x = m x) :
    restore ps m' = replay ps m ↔
      ∀ x, (ps.findSome? fun p => p x) = ps.reverse.findSome? fun p => p x := by
  rw [funext_iff]
  refine forall_congr' fun x => ?_
  rw [restore_apply, replay_apply]
  cases hfirst : ps.findSome? fun p => p x with
  | none =>
    have hnone := List.findSome?_eq_none_iff.mp hfirst
    have hlast : (ps.reverse.findSome? fun p => p x) = none :=
      List.findSome?_eq_none_iff.mpr fun p hp => hnone p (List.mem_reverse.mp hp)
    rw [hlast, hm x hnone]
    exact iff_of_true rfl rfl
  | some b =>
    cases hlast : ps.reverse.findSome? fun p => p x with
    | none =>
      -- a place the first patch has, the last one has too
      obtain ⟨p, hp, hb⟩ := List.exists_of_findSome?_eq_some hfirst
      have := List.findSome?_eq_none_iff.mp hlast p (List.mem_reverse.mpr hp)
      rw [hb] at this
      cases this
    | some c => exact (Option.some_inj (a := b) (b := c)).symm

end Common

end Radare
