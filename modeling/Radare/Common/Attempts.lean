import Mathlib.Logic.Relation
import Mathlib.Order.Nat
import Mathlib.Tactic.Common
/-!
# Attempts at a word

A matcher that counts how much of a word it has, and that an entry which
is not the next one brings back to nothing, spends that entry: the next
attempt begins behind it. So attempts follow one another (`Breaks`), one
is under way at any time (`Trying`), and the word is found where one of
them has the whole of it, which is so at most once (`Whole.unique`) and
not yet while one is under way (`Trying.lt_of_whole`).
-/

namespace Radare

namespace Common

open Relation

variable {α : Type*} {word : List α} {text text' : ℕ → α} {a b c k n : ℕ}

/-- The first entries of the word stand at a place of the text. -/
def Stands (word : List α) (text : ℕ → α) (a k : ℕ) : Prop :=
  ∀ i < k, word[i]? = some (text (a + i))

/-- An attempt comes to an entry that is not the next one of the word, and
another begins behind it. -/
def Breaks (word : List α) (text : ℕ → α) (a b : ℕ) : Prop :=
  ∃ j < word.length, b = a + j + 1 ∧ Stands word text a j ∧ word[j]? ≠ some (text (a + j))

/-- The matcher begins an attempt. -/
def Begins (word : List α) (text : ℕ → α) (a : ℕ) : Prop := ReflTransGen (Breaks word text) 0 a

/-- An attempt that has some of the word. -/
structure Trying (word : List α) (text : ℕ → α) (a k : ℕ) : Prop where
  begins : Begins word text a
  lt : k < word.length
  stands : Stands word text a k

/-- An attempt that has the whole of it. -/
structure Whole (word : List α) (text : ℕ → α) (a : ℕ) : Prop where
  begins : Begins word text a
  stands : Stands word text a word.length

theorem Stands.mono (h : Stands word text a k) (hn : n ≤ k) : Stands word text a n :=
  fun i hi => h i (hi.trans_le hn)

theorem stands_zero : Stands word text a 0 := fun i hi => absurd hi (Nat.not_lt_zero i)

theorem Stands.succ (h : Stands word text a k) (hk : word[k]? = some (text (a + k))) :
    Stands word text a (k + 1) := by
  intro i hi
  rcases Nat.lt_succ_iff_lt_or_eq.mp hi with hlt | rfl
  · exact h i hlt
  · exact hk

/-- What stands in a text stands in one that is the same there. -/
theorem Stands.congr (h : Stands word text a k)
    (hsame : ∀ j, a ≤ j → j < a + k → text j = text' j) : Stands word text' a k := by
  intro i hi
  rw [h i hi, hsame (a + i) (Nat.le_add_right a i) (by omega)]

/-! ## One attempt after another -/

theorem Breaks.lt (h : Breaks word text a b) : a < b := by
  obtain ⟨j, -, rfl, -⟩ := h
  omega

theorem breaks_unique : Relator.RightUnique (Breaks word text) := by
  rintro a b c ⟨j, hj, rfl, hstands, hend⟩ ⟨j', hj', rfl, hstands', hend'⟩
  rcases Nat.lt_trichotomy j j' with hlt | rfl | hlt
  · exact absurd (hstands' j hlt) hend
  · rfl
  · exact absurd (hstands j' hlt) hend'

theorem le_of_follows (h : ReflTransGen (Breaks word text) a b) : a ≤ b := by
  induction h with
  | refl => exact le_rfl
  | tail _ hbc ih => exact ih.trans hbc.lt.le

/-- Of two attempts the later one follows from the other. -/
theorem Begins.follows (ha : Begins word text a) (hb : Begins word text b) (hab : a ≤ b) :
    ReflTransGen (Breaks word text) a b := by
  rcases ReflTransGen.total_of_right_unique breaks_unique ha hb with h | h
  · exact h
  · obtain rfl := le_antisymm hab (le_of_follows h)
    exact ReflTransGen.refl

/-- **An attempt is over before the next one**, by more than it has. -/
theorem Begins.lt_of_lt (ha : Begins word text a) (hb : Begins word text b) (hab : a < b)
    (hstands : Stands word text a k) : a + k < b ∧ k < word.length := by
  rcases ReflTransGen.cases_head (ha.follows hb hab.le) with rfl | ⟨c, hc, hcb⟩
  · exact absurd hab (lt_irrefl a)
  · obtain ⟨j, hj, rfl, -, hend⟩ := hc
    have hle := le_of_follows hcb
    have hkj : k ≤ j := by
      by_contra hlt
      exact hend (hstands j (by omega))
    exact ⟨by omega, by omega⟩

/-- Attempts are the same as far as the text is. -/
theorem Begins.congr (h : Begins word text a) (hsame : ∀ j < a, text j = text' j) :
    Begins word text' a := by
  induction h with
  | refl => exact ReflTransGen.refl
  | tail _ hbc ih =>
    have hlt := hbc.lt
    obtain ⟨j, hj, rfl, hstands, hend⟩ := hbc
    refine (ih fun i hi => hsame i (hi.trans hlt)).tail ⟨j, hj, rfl, ?_, ?_⟩
    · exact hstands.congr fun i _ hi => hsame i (by omega)
    · rwa [← hsame _ (by omega)]

theorem Whole.congr (h : Whole word text a) (hsame : ∀ j < a + word.length, text j = text' j) :
    Whole word text' a :=
  ⟨h.begins.congr fun j hj => hsame j (by omega), h.stands.congr fun j _ hj => hsame j hj⟩

/-! ## The attempt under way -/

theorem trying_zero (hpos : 0 < word.length) : Trying word text 0 0 :=
  ⟨ReflTransGen.refl, hpos, stands_zero⟩

/-- The next entry is the one of the word. -/
theorem Trying.more (h : Trying word text a k) (hk : word[k]? = some (text (a + k)))
    (hlt : k + 1 < word.length) : Trying word text a (k + 1) :=
  ⟨h.begins, hlt, h.stands.succ hk⟩

/-- And it is the last one. -/
theorem Trying.whole (h : Trying word text a k) (hk : word[k]? = some (text (a + k)))
    (hlast : k + 1 = word.length) : Whole word text a := by
  refine ⟨h.begins, ?_⟩
  rw [← hlast]
  exact h.stands.succ hk

/-- The next entry is another one. -/
theorem Trying.anew (h : Trying word text a k) (hk : word[k]? ≠ some (text (a + k))) :
    Trying word text (a + k + 1) 0 :=
  ⟨h.begins.tail ⟨k, h.lt, rfl, h.stands, hk⟩, (Nat.zero_le k).trans_lt h.lt, stands_zero⟩

/-- **While an attempt is under way the word has not been found.** -/
theorem Trying.lt_of_whole (h : Trying word text a k) (hb : Whole word text b) :
    a + k < b + word.length := by
  have hlt := h.lt
  rcases Nat.lt_trichotomy a b with hab | rfl | hab
  · have := (h.begins.lt_of_lt hb.begins hab h.stands).1
    omega
  · omega
  · exact absurd (hb.begins.lt_of_lt h.begins hab hb.stands).2 (lt_irrefl _)

/-- **The word is found at most once.** -/
theorem Whole.unique (ha : Whole word text a) (hb : Whole word text b) : a = b := by
  rcases Nat.lt_trichotomy a b with hab | rfl | hab
  · exact absurd (ha.begins.lt_of_lt hb.begins hab ha.stands).2 (lt_irrefl _)
  · rfl
  · exact absurd (hb.begins.lt_of_lt ha.begins hab hb.stands).2 (lt_irrefl _)

end Common

end Radare
