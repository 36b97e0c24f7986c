import Mathlib.Data.Nat.Notation
import Mathlib.Logic.Relation
import Mathlib.Tactic.Common
/-!
# Descents

A recursion down to a depth, that visits a place with a state, may leave it alone,
may go wrong there, or goes on from it to some places, one after the other, the state
being passed along. It comes to its end exactly if it goes wrong at no place it is
called for (`descend_ne_none_iff`).
-/

namespace Radare.Common

variable {α σ : Type*}

/-- What holds wherever one comes to holds here, and from each next place on. -/
theorem forall_reached_iff {r : α → α → Prop} {P : α → Prop} {a : α} :
    (∀ b, Relation.ReflTransGen r a b → P b) ↔
      P a ∧ ∀ c, r a c → ∀ b, Relation.ReflTransGen r c b → P b := by
  constructor
  · intro h
    exact ⟨h a .refl, fun c hc b hb => h b (.head hc hb)⟩
  · rintro ⟨hhere, hnext⟩ b hb
    obtain rfl | ⟨c, hc, hcb⟩ := Relation.ReflTransGen.cases_head hb
    · exact hhere
    · exact hnext c hc b hcb

/-- What a visit does. -/
inductive Visit (α σ : Type*) where
  | skip
  | bad
  | go (s : σ) (next : List α)

/-- The recursion: what it leaves of the state, if it does not go wrong. -/
def descend (visit : α → σ → Visit α σ) : ℕ → α → σ → Option σ
  | 0, _, s => some s
  | d + 1, a, s =>
    match visit a s with
    | .skip => some s
    | .bad => none
    | .go s' next => next.foldlM (fun s b => descend visit d b s) s'

/-- One call is made by another, directly or not. -/
inductive Calls (visit : α → σ → Visit α σ) : ℕ → α → σ → ℕ → α → σ → Prop
  | refl (d : ℕ) (a : α) (s : σ) : Calls visit d a s d a s
  | step {d d' : ℕ} {a b a' : α} {s s₁ s₂ s' : σ} {done rest : List α}
      (hgo : visit a s = .go s₁ (done ++ b :: rest))
      (hdone : done.foldlM (fun s b => descend visit d b s) s₁ = some s₂)
      (hcall : Calls visit d b s₂ d' a' s') : Calls visit (d + 1) a s d' a' s'

variable {visit : α → σ → Visit α σ} {d : ℕ} {a : α} {s : σ}

/-- Some steps after one another come to their end if each does that is come to. -/
theorem foldlM_ne_none_iff {f : σ → α → Option σ} {l : List α} :
    l.foldlM f s ≠ none ↔
      ∀ done b rest s', l = done ++ b :: rest → done.foldlM f s = some s' → f s' b ≠ none := by
  induction l generalizing s with
  | nil =>
    refine iff_of_true (Option.some_ne_none s) ?_
    intro done b rest s' h
    cases done <;> cases h
  | cons a l ih =>
    rw [List.foldlM_cons, Option.bind_eq_bind]
    constructor
    · intro h done b rest s' hlist hdone
      cases done with
      | nil =>
        obtain ⟨rfl, rfl⟩ := List.cons.inj hlist
        obtain rfl : s = s' := Option.some.inj hdone
        intro hnone
        rw [hnone] at h
        exact h rfl
      | cons c done =>
        obtain ⟨rfl, rfl⟩ := List.cons.inj hlist
        rw [List.foldlM_cons, Option.bind_eq_bind] at hdone
        cases hfirst : f s a with
        | none =>
          rw [hfirst] at h
          exact absurd rfl h
        | some s₁ =>
          rw [hfirst, Option.bind_some] at h hdone
          exact ih.mp h done b rest s' rfl hdone
    · intro h
      cases hfirst : f s a with
      | none => exact absurd hfirst (h [] a l s rfl rfl)
      | some s₁ =>
        rw [Option.bind_some]
        refine ih.mpr fun done b rest s' hlist hdone => h (a :: done) b rest s' ?_ ?_
        · rw [hlist]
          rfl
        · rw [List.foldlM_cons, hfirst]
          exact hdone

/-- **The recursion comes to its end** exactly if it goes wrong at no place that it
is called for. -/
theorem descend_ne_none_iff :
    descend visit d a s ≠ none ↔
      ∀ d' a' s', Calls visit d a s (d' + 1) a' s' → visit a' s' ≠ .bad := by
  induction d generalizing a s with
  | zero =>
    refine iff_of_true (Option.some_ne_none s) fun d' a' s' h => ?_
    cases h
  | succ d ih =>
    rw [descend]
    cases hvisit : visit a s with
    | skip =>
      refine iff_of_true (Option.some_ne_none s) fun d' a' s' h => ?_
      cases h with
      | refl =>
        rw [hvisit]
        exact nofun
      | step hgo => rw [hvisit] at hgo; cases hgo
    | bad => exact iff_of_false (fun h => h rfl) fun h => h d a s (.refl _ _ _) hvisit
    | go s₁ next =>
      simp only [foldlM_ne_none_iff, ih]
      constructor
      · intro h d' a' s' hcall
        cases hcall with
        | refl =>
          rw [hvisit]
          exact nofun
        | step hgo hdone hcall =>
          rw [hvisit] at hgo
          obtain ⟨rfl, hnext⟩ := Visit.go.inj hgo
          exact h _ _ _ _ hnext hdone d' a' s' hcall
      · intro h done b rest s' hnext hdone d' a' s'' hcall
        exact h d' a' s'' (.step (by rw [hvisit, hnext]) hdone hcall)

end Radare.Common
