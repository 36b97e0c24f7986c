import Mathlib.Data.List.Infix
import Mathlib.Tactic.Common
/-!
# Marks in a text

A scan from left to right puts a mark in the place of each hit, which is `n`
entries long, and keeps the other entries (`marked`). What is put down for a
mark gives the text again (`rendered`), and two texts with marks that render
alike for two texts that begin differently are one (`rendered_inj`).

`searched` is the scan of a memory, by a test that may have no result, up to
a stop. It gives the marks of the text in front of the stop if and only if
the test is right wherever the scan comes (`searched_eq_marked_iff`).
-/

namespace Radare

namespace Common

variable {α : Type*}

/-- The text with its marks, once `k` more entries are passed over. -/
def marked (hit : List α → Bool) (n : ℕ) : ℕ → List α → List (Option α)
  | _, [] => []
  | 0, c :: l => if hit (c :: l) then none :: marked hit n (n - 1) l else some c :: marked hit n 0 l
  | k + 1, _ :: l => marked hit n k l

/-- What is in front of the scan at each place that it comes to. -/
def places (hit : List α → Bool) (n : ℕ) : ℕ → List α → List (List α)
  | _, [] => []
  | 0, c :: l => (c :: l) :: places hit n (if hit (c :: l) then n - 1 else 0) l
  | k + 1, _ :: l => places hit n k l

/-- The scan of a memory up to a stop. -/
def searched (stop : α → Bool) (test : List α → Option Bool) (n : ℕ) :
    ℕ → List α → Option (List (Option α))
  | _, [] => none
  | 0, c :: l =>
    if stop c then some []
    else (test (c :: l)).bind fun hit =>
      if hit then (searched stop test n (n - 1) l).map (none :: ·)
      else (searched stop test n 0 l).map (some c :: ·)
  | k + 1, _ :: l => searched stop test n k l

/-- A text put down for each mark. -/
def rendered (rep : List α) : List (Option α) → List α
  | [] => []
  | none :: p => rep ++ rendered rep p
  | some c :: p => c :: rendered rep p

variable {hit : List α → Bool} {stop : α → Bool} {test : List α → Option Bool}
variable {rep rep' l rest : List α} {p q : List (Option α)} {a b c z : α} {k n : ℕ}

theorem marked_drop : marked hit n k l = marked hit n 0 (l.drop k) := by
  induction l generalizing k with
  | nil =>
    rw [List.drop_nil]
    unfold marked
    rfl
  | cons c l ih =>
    cases k with
    | zero => rfl
    | succ k => rw [marked, List.drop_succ_cons, ih]

theorem searched_drop : searched stop test n k l = searched stop test n 0 (l.drop k) := by
  induction l generalizing k with
  | nil =>
    rw [List.drop_nil]
    unfold searched
    rfl
  | cons c l ih =>
    cases k with
    | zero => rfl
    | succ k => rw [searched, List.drop_succ_cons, ih]

/-! ## What is put down -/

theorem rendered_append : rendered rep (p ++ q) = rendered rep p ++ rendered rep q := by
  induction p with
  | nil => rfl
  | cons o p ih =>
    cases o with
    | none => rw [List.cons_append, rendered, rendered, ih, List.append_assoc]
    | some c => rw [List.cons_append, rendered, rendered, ih, List.cons_append]

theorem rendered_map_some : rendered rep (l.map some) = l := by
  induction l with
  | nil => rfl
  | cons c l ih => rw [List.map_cons, rendered, ih]

theorem rendered_ne_nil {o : Option α} (hrep : rep ≠ []) : rendered rep (o :: p) ≠ [] := by
  cases o with
  | none => exact List.append_ne_nil_of_left_ne_nil hrep _
  | some c => exact List.cons_ne_nil _ _

/-- A mark and an entry do not render alike for both of two texts that begin
differently. -/
theorem not_mark_eq_entry (hab : a ≠ b)
    (ha : rendered (a :: rep) (none :: p) = rendered (a :: rep) (some c :: q))
    (hb : rendered (b :: rep') (none :: p) = rendered (b :: rep') (some c :: q)) : False := by
  rw [rendered, rendered, List.cons_append] at ha hb
  exact hab ((List.cons.inj ha).1.trans (List.cons.inj hb).1.symm)

/-- **Marks are where they render alike** for two texts that begin differently. -/
theorem rendered_inj (hab : a ≠ b) (ha : rendered (a :: rep) p = rendered (a :: rep) q)
    (hb : rendered (b :: rep') p = rendered (b :: rep') q) : p = q := by
  induction p generalizing q with
  | nil =>
    cases q with
    | nil => rfl
    | cons o q => exact absurd ha.symm (rendered_ne_nil (List.cons_ne_nil a rep))
  | cons o p ih =>
    cases q with
    | nil => exact absurd ha (rendered_ne_nil (List.cons_ne_nil a rep))
    | cons o' q =>
      rcases o with _ | c <;> rcases o' with _ | d
      · rw [rendered, rendered] at ha hb
        rw [ih (List.append_cancel_left ha) (List.append_cancel_left hb)]
      · exact (not_mark_eq_entry hab ha hb).elim
      · exact (not_mark_eq_entry hab ha.symm hb.symm).elim
      · rw [rendered, rendered] at ha hb
        rw [(List.cons.inj ha).1, ih (List.cons.inj ha).2 (List.cons.inj hb).2]

/-- A text has no mark just where there is no hit in it, with what is behind. -/
theorem marked_append_iff {m : List α} :
    marked hit n 0 (m ++ l) = m.map some ++ q ↔
      (∀ j < m.length, hit (m.drop j ++ l) = false) ∧ marked hit n 0 l = q := by
  induction m with
  | nil => exact (and_iff_right fun j hj => absurd hj (Nat.not_lt_zero j)).symm
  | cons c m ih =>
    have hfront : (∀ j < (c :: m).length, hit ((c :: m).drop j ++ l) = false) ↔
        hit (c :: (m ++ l)) = false ∧ ∀ j < m.length, hit (m.drop j ++ l) = false := by
      constructor
      · intro h
        exact ⟨h 0 (Nat.succ_pos _), fun j hj => h (j + 1) (Nat.succ_lt_succ hj)⟩
      · rintro ⟨hzero, h⟩ j hj
        cases j with
        | zero => exact hzero
        | succ j => exact h j (Nat.lt_of_succ_lt_succ hj)
    rw [hfront, and_assoc, ← ih, List.cons_append, marked, List.map_cons, List.cons_append]
    cases hit (c :: (m ++ l)) with
    | true =>
      rw [if_pos rfl]
      exact iff_of_false (by simp) fun h => Bool.false_ne_true h.1.symm
    | false =>
      rw [if_neg Bool.false_ne_true, List.cons.injEq, and_iff_right rfl, and_iff_right rfl]

/-! ## Marks for a word -/

/-- A mark stands for the word that is put down. -/
theorem infix_of_mem_none (h : none ∈ p) : rep <:+: rendered rep p := by
  obtain ⟨s, t, rfl⟩ := List.append_of_mem h
  exact ⟨rendered rep s, rendered rep t, by rw [rendered_append, rendered, List.append_assoc]⟩

theorem eq_map_some_of_not_mem (rep : List α) (h : none ∉ p) : p = (rendered rep p).map some := by
  induction p with
  | nil => rfl
  | cons o p ih =>
    rw [List.mem_cons, not_or] at h
    cases o with
    | none => exact absurd rfl h.1
    | some c => rw [rendered, List.map_cons, ← ih h.2]

/-- **The word put down again** is the text. -/
theorem rendered_marked (hhit : ∀ l, hit l = true → rep <+: l) (hrep : rep ≠ []) :
    rendered rep (marked hit rep.length k l) = l.drop k := by
  induction l generalizing k with
  | nil =>
    rw [List.drop_nil]
    unfold marked
    rfl
  | cons c l ih =>
    cases k with
    | succ k => exact ih
    | zero =>
      rw [marked, List.drop_zero]
      split_ifs with h
      · obtain ⟨t, ht⟩ := hhit _ h
        obtain ⟨d, w, rfl⟩ := List.exists_cons_of_ne_nil hrep
        have hl : l = w ++ t := (List.cons.inj ht).2.symm
        have hskip : l.drop ((d :: w).length - 1) = t := by
          rw [hl, List.length_cons, Nat.add_sub_cancel, List.drop_left]
        rw [rendered, ih, hskip, ht]
      · rw [rendered, ih, List.drop_zero]

/-- The scan finds the word if it is there. -/
theorem mem_none_marked (hhit : ∀ l, rep <+: l → hit l = true) (hrep : rep ≠ [])
    (h : rep <:+: l) : none ∈ marked hit n 0 l := by
  induction l with
  | nil => exact absurd (List.infix_nil.mp h) hrep
  | cons c l ih =>
    rw [marked]
    split_ifs with hc
    · exact List.mem_cons_self
    · rcases List.infix_cons_iff.mp h with hfront | hbehind
      · exact absurd (hhit _ hfront) hc
      · exact List.mem_cons_of_mem _ (ih hbehind)

/-! ## The scan of a memory -/

/-- **A scan is right** if and only if its test is, at each place that the
right scan comes to. -/
theorem searched_eq_marked_iff (hz : stop z = true) (hl : ∀ c ∈ l, stop c = false)
    (hfit : ∀ l, hit l = true → n ≤ l.length) (hk : k ≤ l.length) :
    searched stop test n k (l ++ z :: rest) = some (marked hit n k l) ↔
      ∀ r ∈ places hit n k l, test (r ++ z :: rest) = some (hit r) := by
  induction l generalizing k with
  | nil =>
    obtain rfl : k = 0 := Nat.le_zero.mp hk
    refine iff_of_true ?_ fun r hr => absurd hr List.not_mem_nil
    rw [List.nil_append, searched, if_pos hz, marked]
  | cons c l ih =>
    have hrest : ∀ x ∈ l, stop x = false := fun x hx => hl x (List.mem_cons_of_mem _ hx)
    rw [List.length_cons] at hk
    cases k with
    | succ k => exact ih hrest (by omega)
    | zero =>
      have hc : ¬stop c = true := by
        rw [hl c List.mem_cons_self]
        exact Bool.false_ne_true
      rw [List.cons_append, searched, if_neg hc, marked, places, List.forall_mem_cons,
        List.cons_append]
      cases htest : test (c :: (l ++ z :: rest)) with
      | none => exact iff_of_false nofun fun h => nomatch h.1
      | some found =>
        rw [Option.bind_some]
        cases hhit : hit (c :: l) with
        | true =>
          have hlen := hfit _ hhit
          rw [List.length_cons] at hlen
          have hnext := ih hrest (show n - 1 ≤ l.length by omega)
          cases found with
          | true =>
            rw [if_pos rfl, if_pos rfl, if_pos rfl, ← hnext, and_iff_right rfl]
            simp
          | false =>
            refine iff_of_false ?_ fun h => Bool.false_ne_true (Option.some.inj h.1)
            simp
        | false =>
          have hnext := ih hrest (Nat.zero_le _)
          cases found with
          | true =>
            refine iff_of_false ?_ fun h => Bool.false_ne_true (Option.some.inj h.1).symm
            simp
          | false =>
            rw [if_neg Bool.false_ne_true, if_neg Bool.false_ne_true, if_neg Bool.false_ne_true,
              ← hnext, and_iff_right rfl]
            simp

end Common

end Radare
