import Mathlib.Data.Int.Notation
import Mathlib.Data.List.Basic
import Mathlib.Tactic.Common
/-!
# Loops over their own output

A loop that reads from where its own output has led it writes a list
whose next entry is a function of those before it (`grow`). Such a list is
told from another by the first entry where they part (`grow_nil_eq_iff`).
Where a turn may have no result, the loop has one if the test for it says
so, and this is carried from turn to turn (`Gives.bind`).

A loop that counts the entries it passes finds the one with an index
(`nthFrom_eq`), and one that begins anew behind every entry it takes out
takes out all of a kind (`eraseLoop_eq`).
-/

namespace Radare

namespace Common

variable {α : Type*} {next : List α → α} {l m : List α} {n k : ℕ}

/-- A list with entries more, each read off the list so far. -/
def grow (next : List α → α) : ℕ → List α → List α
  | 0, l => l
  | n + 1, l => grow next n (l ++ [next l])

@[simp] theorem grow_zero : grow next 0 l = l := rfl

theorem grow_succ : grow next (n + 1) l = grow next n (l ++ [next l]) := rfl

@[simp] theorem grow_length : (grow next n l).length = l.length + n := by
  induction n generalizing l with
  | zero => rfl
  | succ n ih =>
    rw [grow_succ, ih, List.length_append, List.length_singleton]
    omega

theorem grow_add : grow next (n + k) l = grow next k (grow next n l) := by
  induction n generalizing l with
  | zero => rw [Nat.zero_add, grow_zero]
  | succ n ih => rw [Nat.add_right_comm, grow_succ, grow_succ, ih]

/-- What is there stays. -/
theorem prefix_grow : l <+: grow next n l := by
  induction n generalizing l with
  | zero => exact List.prefix_rfl
  | succ n ih => exact (List.prefix_append l _).trans ih

/-- **Another list is the one grown if every entry of it is the next
one.** -/
theorem grow_eq_append_iff :
    grow next n l = l ++ m ↔
      m.length = n ∧ ∀ k < n, m[k]? = some (next (l ++ m.take k)) := by
  induction n generalizing l m with
  | zero =>
    rw [grow_zero, List.self_eq_append_right, List.length_eq_zero_iff]
    simp
  | succ n ih =>
    rw [grow_succ]
    cases m with
    | nil =>
      refine iff_of_false (fun h => ?_) fun h => ?_
      · have := congrArg List.length h
        simp at this
        omega
      · simpa using h.1
    | cons c m =>
      constructor
      · intro h
        -- the entry behind `l` is the next one
        have hc : c = next l := by
          have hp : l ++ [next l] <+: l ++ c :: m := h ▸ prefix_grow
          have := (List.prefix_append_right_inj l).mp hp
          exact (List.cons_prefix_cons.mp this).1.symm
        subst hc
        rw [List.append_cons l _ m, ih] at h
        refine ⟨by rw [List.length_cons, h.1], fun k hk => ?_⟩
        cases k with
        | zero => simp
        | succ k =>
          have := h.2 k (by omega)
          simpa using this
      · rintro ⟨hlen, h⟩
        have hc : c = next l := by simpa using h 0 (by omega)
        subst hc
        rw [List.append_cons l _ m, ih]
        refine ⟨by simpa using hlen, fun k hk => ?_⟩
        have := h (k + 1) (by omega)
        simpa using this

/-- The same from the start. -/
theorem grow_nil_eq_iff :
    grow next n [] = m ↔ m.length = n ∧ ∀ k < n, m[k]? = some (next (m.take k)) := by
  simpa using (grow_eq_append_iff (l := []) : grow next n [] = [] ++ m ↔ _)

/-! ## Results told by a test -/

variable {β γ : Type*} {r : Option β} {kont : β → Option γ} {t t' : Bool} {P : β → Prop}
variable {Q : γ → Prop}

/-- There is a result, as the predicate says, if and only if the test
holds. -/
structure Gives (r : Option β) (t : Bool) (P : β → Prop) : Prop where
  some : t = true → ∃ b, r = some b ∧ P b
  none : t = false → r = none

/-- **One turn and the rest**, whose test implies the turn's. -/
theorem Gives.bind (h : Gives r t P) (hk : ∀ b, P b → Gives (kont b) t' Q)
    (htest : t' = true → t = true) : Gives (r.bind kont) t' Q := by
  refine ⟨fun ht => ?_, fun ht => ?_⟩
  · obtain ⟨b, rfl, hb⟩ := h.some (htest ht)
    exact (hk b hb).some ht
  · cases hturn : t with
    | true =>
      obtain ⟨b, rfl, hb⟩ := h.some hturn
      exact (hk b hb).none ht
    | false =>
      rw [h.none hturn]
      rfl

/-- A result that is there, and its test. -/
theorem Gives.of_eq_some (h : Gives r t P) {b : β} (hr : r = Option.some b) : t = true ∧ P b := by
  cases hturn : t with
  | true =>
    obtain ⟨b', hr', hb⟩ := h.some hturn
    obtain rfl := Option.some.inj (hr.symm.trans hr')
    exact ⟨rfl, hb⟩
  | false => exact absurd (hr.symm.trans (h.none hturn)) (by simp)

/-! ## Counting -/

/-- The entry that a counter meets on its way down a list. -/
def nthFrom (n : ℤ) : ℕ → List α → Option α
  | _, [] => none
  | i, a :: l => if i = n then some a else nthFrom n (i + 1) l

theorem nthFrom_eq {n : ℤ} {i : ℕ} : nthFrom n i l = if n < i then none else l[(n - i).toNat]? := by
  induction l generalizing i with
  | nil => simp [nthFrom]
  | cons a l ih =>
    unfold nthFrom
    rw [ih]
    split_ifs with hi hlt hlt hlt
    · omega
    · have hzero : (n - (i : ℤ)).toNat = 0 := by omega
      rw [hzero]
      rfl
    · rfl
    · omega
    · omega
    · have hsucc : (n - (i : ℤ)).toNat = (n - ((i + 1 : ℕ) : ℤ)).toNat + 1 := by omega
      rw [hsucc, List.getElem?_cons_succ]

/-! ## Taking out -/

/-- The entries of a list, with the first of a kind taken out in each
turn. -/
def eraseLoop (p : α → Bool) : ℕ → List α → List α
  | 0, l => l
  | n + 1, l => if l.any p then eraseLoop p n (l.eraseP p) else l

/-- **With turns enough, all of the kind are gone.** -/
theorem eraseLoop_eq {p : α → Bool} (h : l.length ≤ n) :
    eraseLoop p n l = l.filter (!p ·) := by
  induction n generalizing l with
  | zero =>
    rw [List.length_eq_zero_iff.mp (Nat.le_zero.mp h)]
    rfl
  | succ n ih =>
    unfold eraseLoop
    split_ifs with hany
    · obtain ⟨x, hx, hp⟩ := List.any_eq_true.mp hany
      obtain ⟨a, l₁, l₂, -, ha, hsplit, herase⟩ := List.exists_of_eraseP hx hp
      -- the entry taken out is one the filter leaves out
      have hskip : (a :: l₂).filter (!p ·) = l₂.filter (!p ·) :=
        List.filter_cons_of_neg (by simpa using ha)
      rw [hsplit, List.length_append, List.length_cons] at h
      rw [herase, ih (by rw [List.length_append]; omega), hsplit, List.filter_append,
        List.filter_append, hskip]
    · rw [List.any_eq_true] at hany
      refine (List.filter_eq_self.mpr fun x hx => ?_).symm
      rw [Bool.not_eq_true', ← Bool.not_eq_true]
      exact fun hp => hany ⟨x, hx, hp⟩

end Common

end Radare
