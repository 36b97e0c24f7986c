import Mathlib.Data.List.Nodup
import Mathlib.Tactic.Common
/-!
# Lists with keys

A list of entries with keys is a map from keys to entries if no two keys
are the same. Then the last entry of a key, rewritten or taken out, is the
only one, and what is found under every key is known (`find_replaceLast`,
`find_eraseLast`, `find_concat`). An entry put behind the others keeps the
keys distinct exactly if its own is new (`distinct_concat_iff`).
-/

namespace Radare

namespace Common

variable {α κ : Type*} [DecidableEq κ] {key : α → κ} {l : List α} {a x : α} {k k' : κ}

/-- No two entries have the same key. -/
def Distinct (key : α → κ) (l : List α) : Prop := (l.map key).Nodup

/-- The first entry of a key. -/
def findKey (key : α → κ) (k : κ) (l : List α) : Option α := l.find? fun x => key x = k

def hasKey (key : α → κ) (k : κ) (l : List α) : Bool := l.any fun x => key x = k

/-- The last entry of a key, rewritten. -/
def replaceLast (key : α → κ) (k : κ) (a : α) : List α → List α
  | [] => []
  | x :: l =>
    if hasKey key k l then x :: replaceLast key k a l
    else (if key x = k then a else x) :: l

/-- The last entry of a key, taken out. -/
def eraseLast (key : α → κ) (k : κ) : List α → List α
  | [] => []
  | x :: l =>
    if hasKey key k l then x :: eraseLast key k l
    else if key x = k then l
    else x :: l

theorem hasKey_iff : hasKey key k l = true ↔ k ∈ l.map key := by
  unfold hasKey
  rw [List.any_eq_true, List.mem_map]
  simp only [decide_eq_true_eq]

theorem findKey_cons :
    findKey key k (x :: l) = if key x = k then some x else findKey key k l := by
  unfold findKey
  rw [List.find?_cons]
  by_cases hx : key x = k <;> simp [hx]

theorem findKey_eq_none_iff : findKey key k l = none ↔ k ∉ l.map key := by
  unfold findKey
  rw [List.find?_eq_none, List.mem_map]
  simp

/-! ## Distinct keys -/

omit [DecidableEq κ] in
theorem distinct_concat_iff :
    Distinct key (l ++ [a]) ↔ Distinct key l ∧ key a ∉ l.map key := by
  unfold Distinct
  rw [List.map_append, List.map_singleton, List.nodup_append]
  simp only [List.nodup_singleton, true_and, List.mem_singleton, ne_eq]
  refine and_congr_right fun _ => ⟨fun h hmem => h _ hmem _ rfl rfl, ?_⟩
  rintro h b hb c rfl rfl
  exact h hb

theorem map_key_replaceLast (ha : key a = k) : (replaceLast key k a l).map key = l.map key := by
  induction l with
  | nil => rfl
  | cons x l ih =>
    unfold replaceLast
    split_ifs with hany hx
    · rw [List.map_cons, List.map_cons, ih]
    · rw [List.map_cons, List.map_cons, ha, hx]
    · rfl

theorem eraseLast_sublist : (eraseLast key k l).Sublist l := by
  induction l with
  | nil => exact List.Sublist.refl _
  | cons x l ih =>
    unfold eraseLast
    split_ifs
    · exact ih.cons_cons x
    · exact List.sublist_cons_self x l
    · exact List.Sublist.refl _

/-- **An entry taken out**: it was the only one of its key. -/
theorem eraseLast_eq (h : Distinct key l) :
    eraseLast key k l = l.filter fun x => key x ≠ k := by
  induction l with
  | nil => rfl
  | cons x l ih =>
    obtain ⟨hx, hl⟩ := List.nodup_cons.mp h
    unfold eraseLast
    by_cases hany : hasKey key k l = true
    · have hne : key x ≠ k := fun heq => hx (heq ▸ hasKey_iff.mp hany)
      rw [if_pos hany, ih hl, List.filter_cons, if_pos (decide_eq_true hne)]
    · have hall : l.filter (fun y => key y ≠ k) = l := by
        refine List.filter_eq_self.mpr fun y hy => decide_eq_true fun heq => hany ?_
        exact hasKey_iff.mpr (heq ▸ List.mem_map_of_mem hy)
      rw [if_neg hany]
      by_cases heq : key x = k
      · rw [if_pos heq, List.filter_cons, if_neg (by simpa using heq), hall]
      · rw [if_neg heq, List.filter_cons, if_pos (decide_eq_true heq), hall]

/-! ## What is found -/

theorem find_concat (hnew : key a ∉ l.map key) :
    findKey key k' (l ++ [a]) = if k' = key a then some a else findKey key k' l := by
  induction l with
  | nil =>
    rw [List.nil_append, findKey_cons]
    by_cases hk : key a = k'
    · rw [if_pos hk, if_pos hk.symm]
    · rw [if_neg hk, if_neg (Ne.symm hk)]
  | cons x l ih =>
    have hne : key x ≠ key a := fun heq => hnew (heq ▸ List.mem_cons_self)
    rw [List.cons_append, findKey_cons, findKey_cons,
      ih fun hmem => hnew (List.mem_cons_of_mem _ hmem)]
    by_cases hx : key x = k'
    · rw [if_pos hx, if_pos hx, if_neg fun heq => hne (hx.trans heq)]
    · rw [if_neg hx, if_neg hx]

theorem find_replaceLast (h : Distinct key l) (ha : key a = k) (hk : k ∈ l.map key) :
    findKey key k' (replaceLast key k a l) = if k' = k then some a else findKey key k' l := by
  induction l with
  | nil => exact absurd hk List.not_mem_nil
  | cons x l ih =>
    obtain ⟨hx, hl⟩ := List.nodup_cons.mp h
    unfold replaceLast
    by_cases hany : hasKey key k l = true
    · have hmem := hasKey_iff.mp hany
      have hne : key x ≠ k := fun heq => hx (heq ▸ hmem)
      rw [if_pos hany, findKey_cons, findKey_cons, ih hl hmem]
      by_cases hxk : key x = k'
      · rw [if_pos hxk, if_pos hxk, if_neg fun heq => hne (hxk.trans heq)]
      · rw [if_neg hxk, if_neg hxk]
    · have heq : key x = k := by
        rcases List.mem_cons.mp hk with heq | hmem
        · exact heq.symm
        · exact absurd (hasKey_iff.mpr hmem) hany
      rw [if_neg hany, if_pos heq, findKey_cons, findKey_cons, ha, heq]
      by_cases hkk : k = k'
      · rw [if_pos hkk, if_pos hkk.symm]
      · rw [if_neg hkk, if_neg (Ne.symm hkk), if_neg hkk]

theorem find_eraseLast (h : Distinct key l) :
    findKey key k' (eraseLast key k l) = if k' = k then none else findKey key k' l := by
  rw [eraseLast_eq h]
  by_cases hkk : k' = k
  · rw [if_pos hkk, findKey_eq_none_iff, List.mem_map]
    rintro ⟨x, hx, heq⟩
    exact of_decide_eq_true (List.mem_filter.mp hx).2 (heq.trans hkk)
  · rw [if_neg hkk]
    unfold findKey
    rw [List.find?_filter]
    refine congrArg (List.find? · l) (funext fun x => ?_)
    by_cases hx : key x = k'
    · simp [hx, hkk]
    · simp [hx]

end Common

end Radare
