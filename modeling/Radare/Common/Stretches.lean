import Mathlib.Data.List.Basic
import Mathlib.Tactic.Common
/-!
# Stretches

The longest stretches of entries of a kind in a list, each with the index it begins at
(`stretches`), as they are collected from the front: what is collected so far is let out at
the first entry of another kind. They are those that have no entry of the kind beside them
(`mem_stretches`).
-/

namespace Radare.Common

variable {α : Type*} {p : α → Bool} {a : α} {l front v w : List α} {i o : ℕ}

/-- A stretch that is let out in front of an index. -/
def letOut (i : ℕ) : List α → List (ℕ × List α)
  | [] => []
  | a :: w => [(i - (a :: w).length, a :: w)]

/-- The stretches from an index on, with what is collected in front of it. -/
def stretchesFrom (p : α → Bool) : ℕ → List α → List α → List (ℕ × List α)
  | i, w, [] => letOut i w
  | i, w, a :: l =>
    if p a then stretchesFrom p (i + 1) (w ++ [a]) l
    else letOut i w ++ stretchesFrom p (i + 1) [] l

/-- The stretches of a kind. -/
def stretches (p : α → Bool) (l : List α) : List (ℕ × List α) := stretchesFrom p 0 [] l

theorem mem_letOut : (o, v) ∈ letOut i w ↔ w ≠ [] ∧ o = i - w.length ∧ v = w := by
  cases w with
  | nil => exact iff_of_false List.not_mem_nil fun h => h.1 rfl
  | cons a w =>
    rw [letOut, List.mem_singleton, Prod.mk.injEq]
    exact (and_iff_right (List.cons_ne_nil a w)).symm

theorem stretchesFrom_pos (h : p a = true) :
    stretchesFrom p i w (a :: l) = stretchesFrom p (i + 1) (w ++ [a]) l := by
  rw [stretchesFrom, if_pos h]

theorem stretchesFrom_neg (h : p a = false) :
    stretchesFrom p i w (a :: l) = letOut i w ++ stretchesFrom p (i + 1) [] l := by
  rw [stretchesFrom, if_neg (Bool.eq_false_iff.mp h)]

/-- What is collected becomes longer, and is then let out. -/
theorem exists_mem_stretchesFrom (hw : w ≠ []) (l : List α) (i : ℕ) :
    ∃ v, (i - w.length, w ++ v) ∈ stretchesFrom p i w l := by
  induction l generalizing i w with
  | nil => exact ⟨[], mem_letOut.mpr ⟨hw, rfl, List.append_nil w⟩⟩
  | cons a l ih =>
    cases ha : p a with
    | false =>
      rw [stretchesFrom_neg ha]
      exact ⟨[], List.mem_append_left _ (mem_letOut.mpr ⟨hw, rfl, List.append_nil w⟩)⟩
    | true =>
      rw [stretchesFrom_pos ha]
      obtain ⟨v, hv⟩ := ih (List.concat_ne_nil a w) (i + 1)
      have hstart : i + 1 - (w ++ [a]).length = i - w.length := by
        rw [List.length_append, List.length_singleton]
        omega
      rw [hstart, List.append_assoc] at hv
      exact ⟨a :: v, hv⟩

/-! ## What they are -/

/-- A stretch of a list at an index: the entries beside it are not of the kind. -/
def IsStretch (p : α → Bool) (l : List α) (o : ℕ) (v : List α) : Prop :=
  ∃ front back, l = front ++ v ++ back ∧ o = front.length ∧ v ≠ [] ∧ (∀ a ∈ v, p a = true) ∧
    (∀ a ∈ front.getLast?, p a = false) ∧ ∀ a ∈ back.head?, p a = false

/-- What is let out is a stretch. -/
theorem isStretch_of_mem (front : List α) (hfront : ∀ a ∈ front.getLast?, p a = false)
    (hw : ∀ a ∈ w, p a = true) (hmem : (o, v) ∈ stretchesFrom p (front.length + w.length) w l) :
    IsStretch p (front ++ w ++ l) o v := by
  have hstart : ∀ m n : ℕ, m + n - n = m := fun m n => Nat.add_sub_cancel ..
  induction l generalizing front w with
  | nil =>
    obtain ⟨hne, rfl, rfl⟩ := mem_letOut.mp hmem
    exact ⟨front, [], rfl, hstart .., hne, hw, hfront, fun a ha => absurd ha (by simp)⟩
  | cons a l ih =>
    have hassoc : front ++ w ++ a :: l = front ++ (w ++ [a]) ++ l := by simp
    cases ha : p a with
    | true =>
      rw [stretchesFrom_pos ha, Nat.add_assoc] at hmem
      have hw' : ∀ c ∈ w ++ [a], p c = true := by
        intro c hc
        rcases List.mem_append.mp hc with hc | hc
        · exact hw c hc
        · exact List.mem_singleton.mp hc ▸ ha
      have hlen : w.length + 1 = (w ++ [a]).length := by
        rw [List.length_append, List.length_singleton]
      rw [hlen] at hmem
      rw [hassoc]
      exact ih front hfront hw' hmem
    | false =>
      rw [stretchesFrom_neg ha] at hmem
      rcases List.mem_append.mp hmem with hmem | hmem
      · obtain ⟨hne, rfl, rfl⟩ := mem_letOut.mp hmem
        refine ⟨front, a :: l, rfl, hstart .., hne, hw, hfront, fun c hc => ?_⟩
        rw [← Option.mem_some.mp hc]
        exact ha
      · have hlen : front.length + w.length + 1 =
            (front ++ w ++ [a]).length + ([] : List α).length := by
          simp only [List.length_append, List.length_singleton, List.length_nil, Nat.add_zero]
        rw [hlen] at hmem
        have hlast : ∀ c ∈ (front ++ w ++ [a]).getLast?, p c = false := by
          intro c hc
          rw [List.getLast?_concat, Option.mem_some] at hc
          exact hc ▸ ha
        have hrest := ih (front ++ w ++ [a]) hlast (fun c hc => absurd hc List.not_mem_nil) hmem
        rwa [List.append_nil, List.append_assoc, List.singleton_append] at hrest

/-- Behind an entry of another kind nothing is collected. -/
theorem stretchesFrom_append (hlast : ∀ a ∈ front.getLast?, p a = false) (hne : front ≠ [])
    (l : List α) :
    ∃ rs, stretchesFrom p i w (front ++ l) = rs ++ stretchesFrom p (i + front.length) [] l := by
  induction front generalizing i w with
  | nil => exact absurd rfl hne
  | cons a front ih =>
    rw [List.cons_append]
    cases front with
    | nil =>
      have ha : p a = false := hlast a rfl
      exact ⟨letOut i w, stretchesFrom_neg ha⟩
    | cons b front =>
      rw [List.getLast?_cons_cons] at hlast
      have hlen : i + 1 + (b :: front).length = i + (a :: b :: front).length := by
        simp only [List.length_cons]
        omega
      cases ha : p a with
      | true =>
        rw [stretchesFrom_pos ha, ← hlen]
        exact ih hlast (List.cons_ne_nil b front)
      | false =>
        rw [stretchesFrom_neg ha, ← hlen]
        obtain ⟨rs, hrs⟩ := ih (i := i + 1) (w := []) hlast (List.cons_ne_nil b front)
        exact ⟨letOut i w ++ rs, by rw [hrs, List.append_assoc]⟩

/-- Entries of the kind are collected. -/
theorem stretchesFrom_collect (hv : ∀ a ∈ v, p a = true) (l : List α) :
    stretchesFrom p i w (v ++ l) = stretchesFrom p (i + v.length) (w ++ v) l := by
  induction v generalizing i w with
  | nil => rw [List.nil_append, List.append_nil, List.length_nil, Nat.add_zero]
  | cons a v ih =>
    rw [List.cons_append, stretchesFrom_pos (hv a List.mem_cons_self),
      ih (fun c hc => hv c (List.mem_cons_of_mem a hc)), List.append_assoc, List.length_cons,
      List.singleton_append, Nat.add_assoc, Nat.add_comm 1]

/-- **The stretches of a list** are those that have no entry of the kind beside them. -/
theorem mem_stretches : (o, v) ∈ stretches p l ↔ IsStretch p l o v := by
  constructor
  · exact fun h => isStretch_of_mem [] (w := []) (fun a ha => by cases ha)
      (fun a ha => absurd ha List.not_mem_nil) h
  · rintro ⟨front, back, rfl, rfl, hne, hv, hlast, hhead⟩
    have hfront : ∃ rs, stretches p (front ++ v ++ back) =
        rs ++ stretchesFrom p front.length [] (v ++ back) := by
      rw [List.append_assoc]
      by_cases hnil : front = []
      · rw [hnil]
        exact ⟨[], rfl⟩
      · obtain ⟨rs, hrs⟩ := stretchesFrom_append (i := 0) (w := []) hlast hnil (v ++ back)
        rw [Nat.zero_add] at hrs
        exact ⟨rs, hrs⟩
    have hout : (front.length, v) ∈ letOut (front.length + v.length) v :=
      mem_letOut.mpr ⟨hne, (Nat.add_sub_cancel ..).symm, rfl⟩
    obtain ⟨rs, hrs⟩ := hfront
    rw [hrs, stretchesFrom_collect hv, List.nil_append]
    refine List.mem_append_right rs ?_
    cases back with
    | nil => exact hout
    | cons b back =>
      rw [stretchesFrom_neg (hhead b rfl)]
      exact List.mem_append_left _ hout

end Radare.Common
