import Mathlib.Data.List.Chain
import Mathlib.Data.List.DropRight
import Mathlib.Data.List.SplitOn
import Mathlib.Tactic.Common
/-!
# Words between separators

The words of a list are what stands between separators and is not empty
(`wordsOf`). A list is separators alone, or words with one separator or more
between them and any number at its ends (`exists_gapped`). Where the numbers
between the words are all one, no separator follows another within the list
(`isChain_gapped_iff`).
-/

namespace Radare

namespace Common

variable {α : Type*} [DecidableEq α] {b : α} {w text : List α} {gs : List (ℕ × List α)} {m n : ℕ}

/-- What stands between separators, without what is empty. -/
def wordsOf (b : α) (text : List α) : List (List α) := (text.splitOn b).filter (· ≠ [])

/-- Words, each with a separator and so many more in front. -/
def gapped (b : α) : List (ℕ × List α) → List α
  | [] => []
  | (n, w) :: gs => List.replicate (n + 1) b ++ w ++ gapped b gs

/-- A word is not empty, and has no separator. -/
def IsPart (b : α) (w : List α) : Prop := w ≠ [] ∧ b ∉ w

/-- A list without the separators at its ends. -/
def trimmed (b : α) (text : List α) : List α := (text.dropWhile (· = b)).rdropWhile (· = b)

/-! ## Words -/

theorem wordsOf_append_cons (x y : List α) :
    wordsOf b (x ++ b :: y) = wordsOf b x ++ wordsOf b y := by
  unfold wordsOf
  rw [List.splitOn_append_cons_self, List.filter_append]

theorem wordsOf_nil : wordsOf b [] = [] := by
  unfold wordsOf
  rw [List.splitOn_nil]
  rfl

theorem wordsOf_word (hw : IsPart b w) : wordsOf b w = [w] := by
  unfold wordsOf
  rw [List.splitOn_eq_singleton hw.2]
  exact List.filter_cons_of_pos (decide_eq_true hw.1)

theorem wordsOf_replicate_append (n : ℕ) (text : List α) :
    wordsOf b (List.replicate n b ++ text) = wordsOf b text := by
  induction n with
  | zero => rfl
  | succ n ih =>
    have hfront := wordsOf_append_cons (b := b) [] (List.replicate n b ++ text)
    rw [List.nil_append, wordsOf_nil, List.nil_append, ih] at hfront
    exact hfront

theorem wordsOf_replicate (n : ℕ) : wordsOf b (List.replicate n b) = [] := by
  have h := wordsOf_replicate_append (b := b) n []
  rwa [List.append_nil, wordsOf_nil] at h

theorem wordsOf_append_replicate (hw : IsPart b w) (n : ℕ) :
    wordsOf b (w ++ List.replicate n b) = [w] := by
  cases n with
  | zero => rw [List.replicate_zero, List.append_nil, wordsOf_word hw]
  | succ n =>
    rw [List.replicate_succ, wordsOf_append_cons, wordsOf_word hw, wordsOf_replicate, List.append_nil]

omit [DecidableEq α] in
theorem mem_gapped {g : ℕ × List α} {c : α} (hg : g ∈ gs) (hc : c ∈ g.2) : c ∈ gapped b gs := by
  induction gs with
  | nil => exact absurd hg List.not_mem_nil
  | cons h gs ih =>
    rcases List.mem_cons.mp hg with rfl | hg
    · exact List.mem_append_left _ (List.mem_append_right _ hc)
    · exact List.mem_append_right _ (ih hg)

/-- **The words of a list** are those that it is made of. -/
theorem wordsOf_gapped (hw : IsPart b w) (hgs : ∀ g ∈ gs, IsPart b g.2) :
    wordsOf b (List.replicate m b ++ (w ++ gapped b gs) ++ List.replicate n b) =
      w :: gs.map Prod.snd := by
  rw [List.append_assoc, wordsOf_replicate_append]
  induction gs generalizing w with
  | nil =>
    rw [gapped, List.append_nil]
    exact wordsOf_append_replicate hw n
  | cons g gs ih =>
    obtain ⟨k, v⟩ := g
    obtain ⟨hv, hgs⟩ := List.forall_mem_cons.mp hgs
    have hsplit : w ++ gapped b ((k, v) :: gs) ++ List.replicate n b =
        w ++ b :: (List.replicate k b ++ (v ++ gapped b gs ++ List.replicate n b)) := by
      rw [gapped, List.replicate_succ]
      simp
    rw [hsplit, wordsOf_append_cons, wordsOf_word hw, wordsOf_replicate_append, ih hv hgs]
    rfl

/-- **What a list is made of.** -/
theorem exists_gapped (b : α) (text : List α) :
    (∃ n, text = List.replicate n b) ∨ ∃ m w gs n,
      text = List.replicate m b ++ (w ++ gapped b gs) ++ List.replicate n b ∧ IsPart b w ∧
        ∀ g ∈ gs, IsPart b g.2 := by
  induction text with
  | nil => exact Or.inl ⟨0, rfl⟩
  | cons c text ih =>
    by_cases hc : c = b
    · subst hc
      rcases ih with ⟨n, rfl⟩ | ⟨m, w, gs, n, rfl, hw, hgs⟩
      · exact Or.inl ⟨n + 1, rfl⟩
      · exact Or.inr ⟨m + 1, w, gs, n, rfl, hw, hgs⟩
    · have hone : IsPart b [c] := ⟨List.cons_ne_nil _ _, fun h => hc (List.mem_singleton.mp h).symm⟩
      rcases ih with ⟨n, rfl⟩ | ⟨m, w, gs, n, rfl, hw, hgs⟩
      · exact Or.inr ⟨0, [c], [], n, rfl, hone, fun g hg => absurd hg List.not_mem_nil⟩
      · cases m with
        | zero =>
          -- the character belongs to the first word
          refine Or.inr ⟨0, c :: w, gs, n, rfl, ⟨List.cons_ne_nil _ _, fun h => ?_⟩, hgs⟩
          exact (List.mem_cons.mp h).elim (fun h => hc h.symm) hw.2
        | succ m =>
          refine Or.inr ⟨0, [c], (m, w) :: gs, n, ?_, hone, List.forall_mem_cons.mpr ⟨hw, hgs⟩⟩
          rw [gapped]
          simp

/-! ## Separators one behind another -/

omit [DecidableEq α] in
theorem isChain_part (hw : b ∉ w) : w.IsChain fun x y => x = b → y ≠ b := by
  induction w with
  | nil => exact List.isChain_nil
  | cons c w ih =>
    obtain ⟨hc, hw⟩ := not_or.mp (List.mem_cons.not.mp hw)
    exact List.isChain_cons.mpr ⟨fun y _ hcb => absurd hcb.symm hc, ih hw⟩

omit [DecidableEq α] in
theorem getLast?_part (hw : IsPart b w) : ∀ c ∈ w.getLast?, c ≠ b := by
  rintro c hc rfl
  exact hw.2 (List.mem_of_getLast? hc)

omit [DecidableEq α] in
theorem head?_part (hw : IsPart b w) : ∀ c ∈ w.head?, c ≠ b := by
  rintro c hc rfl
  exact hw.2 (List.mem_of_mem_head? hc)

omit [DecidableEq α] in
/-- **No separator follows another**, if there is one between any two
words. -/
theorem isChain_gapped_iff (hw : IsPart b w) (hgs : ∀ g ∈ gs, IsPart b g.2) :
    ((w ++ gapped b gs).IsChain fun x y => x = b → y ≠ b) ↔ ∀ g ∈ gs, g.1 = 0 := by
  induction gs generalizing w with
  | nil =>
    rw [gapped, List.append_nil]
    exact iff_of_true (isChain_part hw.2) fun g hg => absurd hg List.not_mem_nil
  | cons g gs ih =>
    obtain ⟨k, v⟩ := g
    obtain ⟨hv, hrest⟩ := List.forall_mem_cons.mp hgs
    rw [List.forall_mem_cons, gapped]
    cases k with
    | zero =>
      have hone : w ++ (List.replicate (0 + 1) b ++ v ++ gapped b gs) =
          w ++ b :: (v ++ gapped b gs) := by simp
      rw [hone, List.isChain_append, List.isChain_cons, ih hv hrest, and_iff_right rfl]
      constructor
      · exact fun h => h.2.1.2
      · refine fun h => ⟨isChain_part hw.2, ⟨fun y hy _ => ?_, h⟩, fun x hx y _ hxb => ?_⟩
        · rw [List.head?_append_of_ne_nil _ hv.1] at hy
          exact head?_part hv y hy
        · exact absurd hxb (getLast?_part hw x hx)
    | succ k =>
      refine iff_of_false (fun h => ?_) fun h => absurd h.1 (Nat.succ_ne_zero k)
      have htwo : w ++ (List.replicate (k + 1 + 1) b ++ v ++ gapped b gs) =
          w ++ b :: b :: (List.replicate k b ++ (v ++ gapped b gs)) := by
        simp [List.replicate_succ]
      rw [htwo, List.isChain_append_cons_cons] at h
      exact h.2.1 rfl rfl

/-! ## The ends -/

theorem trimmed_replicate (n : ℕ) : trimmed b (List.replicate n b) = [] := by
  have hdrop : (List.replicate n b).dropWhile (fun c => decide (c = b)) = [] := by
    rw [List.dropWhile_eq_nil_iff]
    exact fun c hc => decide_eq_true (List.eq_of_mem_replicate hc)
  unfold trimmed
  rw [hdrop]
  rfl

omit [DecidableEq α] in
theorem getLast?_gapped (hw : IsPart b w) (hgs : ∀ g ∈ gs, IsPart b g.2) :
    ∀ c ∈ (w ++ gapped b gs).getLast?, c ≠ b := by
  induction gs generalizing w with
  | nil =>
    rw [gapped, List.append_nil]
    exact getLast?_part hw
  | cons g gs ih =>
    obtain ⟨k, v⟩ := g
    obtain ⟨hv, hgs⟩ := List.forall_mem_cons.mp hgs
    have hne : v ++ gapped b gs ≠ [] := List.append_ne_nil_of_left_ne_nil hv.1 _
    intro c hc
    rw [gapped, List.append_assoc, ← List.append_assoc w, List.getLast?_append_of_ne_nil _ hne] at hc
    exact ih hv hgs c hc

/-- Separators at the ends go. -/
theorem trimmed_gapped (hw : IsPart b w) (hgs : ∀ g ∈ gs, IsPart b g.2) :
    trimmed b (List.replicate m b ++ (w ++ gapped b gs) ++ List.replicate n b) =
      w ++ gapped b gs := by
  have hall : ∀ k, ∀ c ∈ List.replicate k b, decide (c = b) = true := fun k c hc =>
    decide_eq_true (List.eq_of_mem_replicate hc)
  have hlast := getLast?_gapped hw hgs
  obtain ⟨c, w, rfl⟩ := List.exists_cons_of_ne_nil hw.1
  have hc : c ≠ b := head?_part hw c rfl
  have hdrop : (List.replicate m b ++ (c :: w ++ gapped b gs) ++ List.replicate n b).dropWhile
      (fun c => decide (c = b)) = (c :: w ++ gapped b gs) ++ List.replicate n b := by
    rw [List.append_assoc, List.dropWhile_append_of_pos (hall m), List.cons_append, List.cons_append,
      List.dropWhile_cons_of_neg (by simpa using hc)]
  unfold trimmed
  rw [hdrop]
  unfold List.rdropWhile
  rw [List.reverse_append, List.reverse_replicate, List.dropWhile_append_of_pos (hall n)]
  cases hrev : (c :: w ++ gapped b gs).reverse with
  | nil => exact absurd (List.reverse_eq_nil_iff.mp hrev) (List.cons_ne_nil _ _)
  | cons d r =>
    have hd : (c :: w ++ gapped b gs).getLast? = some d := by
      rw [List.getLast?_eq_head?_reverse, hrev]
      rfl
    rw [List.dropWhile_cons_of_neg (by simpa using hlast d hd), ← hrev, List.reverse_reverse]

end Common

end Radare
