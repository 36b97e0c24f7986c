import Mathlib.Algebra.BigOperators.Group.List.Basic
import Mathlib.Algebra.GroupWithZero.Nat
import Mathlib.Data.Nat.Notation
import Mathlib.Tactic.Common
/-!
# Runs and groups

A list seen as the lengths of its runs of a kind (`runs`): the one in front of each
entry that is not of the kind, and the one behind the last of these. Entries are
counted in groups of `m`, and the count starts anew behind a run of more than `k`
(`FitsGroups`): that no group ends inside of a shorter run is a statement about sums
of runs (`GroupsFit`).
-/

namespace Radare.Common

variable {α : Type*} {p : α → Bool} {m k w n r last : ℕ} {rs : List ℕ} {x : List ℕ × ℕ}

/-- The first run made longer. -/
def longer (n : ℕ) : List ℕ × ℕ → List ℕ × ℕ
  | ([], last) => ([], n + last)
  | (r :: rs, last) => ((n + r) :: rs, last)

/-- The runs of a kind in front of each other entry, and behind the last of them. -/
def runs (p : α → Bool) : List α → List ℕ × ℕ
  | [] => ([], 0)
  | a :: l => if p a then longer 1 (runs p l) else (0 :: (runs p l).1, (runs p l).2)

theorem longer_zero : longer 0 x = x := by
  rcases x with ⟨_ | ⟨r, rs⟩, last⟩ <;> simp [longer]

theorem longer_longer : longer n (longer m x) = longer (n + m) x := by
  rcases x with ⟨_ | ⟨r, rs⟩, last⟩ <;> simp [longer, Nat.add_assoc]

/-- No group of `m` entries ends inside of a run of `k` at most, when `w` entries are
already counted. -/
def FitsGroups (m k : ℕ) : ℕ → List ℕ → Prop
  | _, [] => True
  | w, r :: rs =>
    if k < r then FitsGroups m k 0 rs
    else w + r < m ∧ FitsGroups m k ((w + r + 1) % m) rs

/-- The runs up to the first whole group. -/
def firstGroup (m k : ℕ) (last : ℕ) : ℕ → List ℕ → List ℕ × ℕ
  | _, [] => ([], last)
  | w, r :: rs =>
    if k < r then (r :: (firstGroup m k last 0 rs).1, (firstGroup m k last 0 rs).2)
    else if w + r + 1 = m then ([r], 0)
    else (r :: (firstGroup m k last (w + r + 1) rs).1, (firstGroup m k last (w + r + 1) rs).2)

/-- The entries of some runs, each with the one behind it. -/
def entries (rs : List ℕ) : ℕ := (rs.map (· + 1)).sum

/-- No group ends inside of a short run: counted from the start, or from behind a
long run, what is in front of a short run and the run itself stay in one group. -/
def GroupsFit (m k w : ℕ) (rs : List ℕ) : Prop :=
  ∀ front mid r rest, rs = front ++ mid ++ r :: rest → (∀ x ∈ front.getLast?, k < x) →
    (∀ x ∈ mid, x ≤ k) → r ≤ k → ((if front = [] then w else 0) + entries mid) % m + r < m

theorem entries_cons : entries (r :: rs) = r + 1 + entries rs := by
  rw [entries, List.map_cons, List.sum_cons, ← entries]

/-- A front with a run more still ends in a long one. -/
theorem getLast?_front {front : List ℕ} (h : ∀ x ∈ front.getLast?, k < x) (hne : front ≠ []) :
    ∀ x ∈ (r :: front).getLast?, k < x := by
  cases front with
  | nil => exact absurd rfl hne
  | cons a front => rwa [List.getLast?_cons_cons]

/-- Behind a long run the count starts anew. -/
theorem groupsFit_cons_long (hlong : k < r) :
    GroupsFit m k w (r :: rs) ↔ GroupsFit m k 0 rs := by
  constructor
  · intro h front mid r' rest hsplit hlast hmid hr
    by_cases hne : front = []
    · subst hne
      have hrest := h [r] mid r' rest (by rw [hsplit]; rfl) (by simpa using hlong) hmid hr
      rw [if_neg (List.cons_ne_nil r [])] at hrest
      rwa [if_pos rfl]
    · have hrest := h (r :: front) mid r' rest (by rw [hsplit]; rfl)
        (getLast?_front hlast hne) hmid hr
      rw [if_neg (List.cons_ne_nil r front)] at hrest
      rwa [if_neg hne]
  · intro h front mid r' rest hsplit hlast hmid hr
    cases front with
    | nil =>
      cases mid with
      | nil =>
        obtain ⟨rfl, -⟩ := List.cons.inj hsplit
        omega
      | cons a mid =>
        obtain ⟨rfl, -⟩ := List.cons.inj hsplit
        have := hmid r List.mem_cons_self
        omega
    | cons a front =>
      obtain ⟨rfl, htail⟩ := List.cons.inj hsplit
      rw [if_neg (List.cons_ne_nil r front)]
      cases front with
      | nil => exact h [] mid r' rest htail (by simp) hmid hr
      | cons b front =>
        rw [List.getLast?_cons_cons] at hlast
        have hrest := h (b :: front) mid r' rest htail hlast hmid hr
        rwa [if_neg (List.cons_ne_nil b front)] at hrest

/-- A short run stays in its group, and is counted with the entry behind it. -/
theorem groupsFit_cons_short (hw : w < m) (hshort : r ≤ k) :
    GroupsFit m k w (r :: rs) ↔ w + r < m ∧ GroupsFit m k ((w + r + 1) % m) rs := by
  constructor
  · intro h
    constructor
    · have hhere := h [] [] r rs rfl (by simp) (by simp) hshort
      rwa [if_pos rfl, entries, List.map_nil, List.sum_nil, Nat.add_zero,
        Nat.mod_eq_of_lt hw] at hhere
    · intro front mid r' rest hsplit hlast hmid hr
      by_cases hne : front = []
      · subst hne
        have hrest := h [] (r :: mid) r' rest (by rw [hsplit]; rfl) hlast
          (List.forall_mem_cons.mpr ⟨hshort, hmid⟩) hr
        rw [if_pos rfl, entries_cons, ← Nat.add_assoc, ← Nat.add_assoc] at hrest
        rwa [if_pos rfl, Nat.mod_add_mod]
      · have hrest := h (r :: front) mid r' rest (by rw [hsplit]; rfl)
          (getLast?_front hlast hne) hmid hr
        rw [if_neg (List.cons_ne_nil r front)] at hrest
        rwa [if_neg hne]
  · rintro ⟨hhere, h⟩ front mid r' rest hsplit hlast hmid hr
    cases front with
    | nil =>
      rw [if_pos rfl]
      cases mid with
      | nil =>
        obtain ⟨rfl, -⟩ := List.cons.inj hsplit
        rw [entries, List.map_nil, List.sum_nil, Nat.add_zero, Nat.mod_eq_of_lt hw]
        exact hhere
      | cons a mid =>
        obtain ⟨rfl, htail⟩ := List.cons.inj hsplit
        have hrest := h [] mid r' rest htail hlast
          (fun x hx => hmid x (List.mem_cons_of_mem r hx)) hr
        rw [if_pos rfl, Nat.mod_add_mod] at hrest
        rwa [entries_cons, ← Nat.add_assoc, ← Nat.add_assoc]
    | cons a front =>
      obtain ⟨rfl, htail⟩ := List.cons.inj hsplit
      rw [if_neg (List.cons_ne_nil r front)]
      cases front with
      | nil =>
        have := hlast r (by simp)
        omega
      | cons b front =>
        rw [List.getLast?_cons_cons] at hlast
        have hrest := h (b :: front) mid r' rest htail hlast hmid hr
        rwa [if_neg (List.cons_ne_nil b front)] at hrest

/-- **Groups end outside of short runs**, run by run. -/
theorem fitsGroups_iff (hw : w < m) : FitsGroups m k w rs ↔ GroupsFit m k w rs := by
  induction rs generalizing w with
  | nil =>
    refine iff_of_true trivial fun front mid r rest h => ?_
    simp at h
  | cons r rs ih =>
    rw [FitsGroups]
    by_cases hlong : k < r
    · rw [if_pos hlong, groupsFit_cons_long hlong, ih (by omega)]
    · rw [if_neg hlong, groupsFit_cons_short hw (by omega), ih (Nat.mod_lt _ (by omega))]

end Radare.Common
