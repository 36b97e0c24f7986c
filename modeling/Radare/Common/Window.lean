import Mathlib.Data.List.Induction
import Mathlib.Tactic.Common
/-!
# Matching by a counter

A pattern is a test for each of its places, and a matcher that reads a
stream once can keep one number: how many places the last symbols fill.
`EndsIn` is what that number should say, and `EndsIn.concat` is the only
way it may grow.

A matcher that goes back to nothing on a mismatch grows by one or starts
again (`Climbs`). So where it stands too high for the last symbols it
stood on the way up before them (`climb_back`), and an occurrence is
found if the matcher starts with it, and only then.
-/

namespace Radare

namespace Common

variable {α : Type*} {m : ℕ → α → Prop} {s n : ℕ} {xs ys : List α} {c : α}

/-- The `s` symbols from place `n` on pass the first `s` tests. -/
def Occurs (m : ℕ → α → Prop) (s : ℕ) (xs : List α) (n : ℕ) : Prop :=
  ∀ k < s, ∃ c, xs[n + k]? = some c ∧ m k c

/-- The last `s` symbols do. -/
def EndsIn (m : ℕ → α → Prop) (s : ℕ) (xs : List α) : Prop :=
  ∃ n, n + s = xs.length ∧ Occurs m s xs n

theorem Occurs.append (h : Occurs m s xs n) : Occurs m s (xs ++ ys) n := by
  intro k hk
  obtain ⟨c, hc, hm⟩ := h k hk
  refine ⟨c, ?_, hm⟩
  rw [List.getElem?_append_left (List.getElem?_eq_some_iff.mp hc).1, hc]

/-- An occurrence ends within the list. -/
theorem Occurs.le_length (h : Occurs m s xs n) (hs : 0 < s) : n + s ≤ xs.length := by
  obtain ⟨c, hc, -⟩ := h (s - 1) (by omega)
  have := (List.getElem?_eq_some_iff.mp hc).1
  omega

theorem EndsIn.zero : EndsIn m 0 xs := ⟨xs.length, rfl, fun k hk => absurd hk (Nat.not_lt_zero k)⟩

/-- **One more symbol that passes the next test.** -/
theorem EndsIn.concat (h : EndsIn m s xs) (hc : m s c) : EndsIn m (s + 1) (xs ++ [c]) := by
  obtain ⟨n, hn, ho⟩ := h
  refine ⟨n, by simp; omega, fun k hk => ?_⟩
  rcases Nat.lt_succ_iff_lt_or_eq.mp hk with hk | rfl
  · exact ho.append k hk
  · exact ⟨c, by rw [hn, List.getElem?_concat_length], hc⟩

/-! ## Counters -/

/-- The counter grows by one, or starts again. -/
def Climbs (δ : ℕ → α → ℕ) : Prop := ∀ s c, δ s c = 0 ∨ δ s c = 1 ∨ δ s c = s + 1

variable {δ : ℕ → α → ℕ}

theorem Climbs.back (h : Climbs δ) {k : ℕ} (hs : δ s c = k + 2) : s = k + 1 := by
  have := h s c
  omega

/-- **A counter that is past what the last symbols can add was there
before them.** -/
theorem climb_back (h : Climbs δ) {k : ℕ} (hs : (xs ++ ys).foldl δ s = ys.length + (k + 1)) :
    xs.foldl δ s = k + 1 := by
  induction ys using List.reverseRecOn with
  | nil => simpa using hs
  | append_singleton ys c ih =>
    rw [← List.append_assoc, List.foldl_append, List.length_append, List.length_singleton] at hs
    refine ih ?_
    have := h.back (hs.trans (by omega : ys.length + 1 + (k + 1) = (ys.length + k) + 2))
    omega

/-- And a counter at `1` that each of the symbols lets grow gets there. -/
theorem climb_up (hxs : xs.foldl δ s = 1)
    (hys : ∀ k c, ys[k]? = some c → δ (k + 1) c = k + 2) :
    (xs ++ ys).foldl δ s = ys.length + 1 := by
  induction ys using List.reverseRecOn with
  | nil => simpa using hxs
  | append_singleton ys c ih =>
    have hinit : ∀ k d, ys[k]? = some d → δ (k + 1) d = k + 2 := by
      intro k d hd
      refine hys k d ?_
      rw [List.getElem?_append_left (List.getElem?_eq_some_iff.mp hd).1, hd]
    rw [← List.append_assoc, List.foldl_append, ih hinit, List.length_append]
    exact hys ys.length c List.getElem?_concat_length

end Common

end Radare
