import Mathlib.Data.List.Chain
import Mathlib.Data.List.Induction
import Mathlib.Tactic.Common
/-!
# Runs and what is behind them

The states of a run, each with those in front of it, which a property may be about:
that a table holds what has been passed, say. If such a property is the same as a
condition in every state that is good, then a run has it throughout exactly if it meets
the condition throughout (`always_iff`).
-/

namespace Radare.Common

variable {State : Type*} {step : State → State → Prop} {Good Right Safe : List State → State → Prop}
  {sts : List State}

/-- What holds of each state of a run and those in front of it. -/
def Always (P : List State → State → Prop) (sts : List State) : Prop :=
  ∀ front st rest, sts = front ++ st :: rest → P front st

theorem always_nil {P : List State → State → Prop} : Always P [] :=
  fun _ _ _ hsplit => absurd hsplit (List.append_ne_nil_of_right_ne_nil _ (List.cons_ne_nil _ _)).symm

/-- The first state, and the ones behind it. -/
theorem always_cons {P : List State → State → Prop} {st : State} (h : P [] st)
    (hrest : Always (fun front => P (st :: front)) sts) : Always P (st :: sts) := by
  intro front st' rest hsplit
  cases front with
  | nil =>
    obtain ⟨rfl, -⟩ := List.cons.inj hsplit
    exact h
  | cons st₀ front =>
    obtain ⟨rfl, hbehind⟩ := List.cons.inj hsplit
    exact hrest front st' rest hbehind

/-- What holds in good states that lead to good ones. -/
theorem always_of_step (hchain : sts.IsChain step) (hstart : ∀ st ∈ sts.head?, Good [] st)
    (hnext : ∀ front st st' rest, sts = front ++ st :: st' :: rest → Good front st →
      step st st' → Good (front ++ [st]) st') :
    Always Good sts := by
  intro front
  induction front using List.reverseRecOn with
  | nil =>
    intro st rest hsplit
    exact hstart st (by rw [hsplit]; rfl)
  | append_singleton front st₀ ih =>
    intro st rest hsplit
    rw [List.append_assoc, List.singleton_append] at hsplit
    have hstep := hchain
    rw [hsplit, List.isChain_append_cons_cons] at hstep
    exact hnext front st₀ st rest hsplit (ih st₀ _ hsplit) hstep.2.1

variable (Good) in
/-- **A run is right in every state exactly if every state is safe**, if the two are the
same in a good state, and a right one is good and leads to good ones. -/
theorem always_iff (hchain : sts.IsChain step) (hstart : ∀ st ∈ sts.head?, Good [] st)
    (hlocal : Always (fun front st => Good front st → (Right front st ↔ Safe front st)) sts)
    (hgood : ∀ front st, Right front st → Good front st)
    (hnext : ∀ front st st', Right front st → step st st' → Good (front ++ [st]) st') :
    Always Right sts ↔ Always Safe sts := by
  constructor
  · intro h front st rest hsplit
    have hright := h front st rest hsplit
    exact (hlocal front st rest hsplit (hgood front st hright)).mp hright
  · intro h
    have hall : Always Good sts := by
      refine always_of_step hchain hstart fun front st st' rest hsplit hfront hstep => ?_
      exact hnext front st st'
        ((hlocal front st _ hsplit hfront).mpr (h front st _ hsplit)) hstep
    intro front st rest hsplit
    exact (hlocal front st rest hsplit (hall front st rest hsplit)).mpr (h front st rest hsplit)

end Radare.Common
